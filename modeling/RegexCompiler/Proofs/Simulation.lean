import RegexCompiler.Nfa

namespace RegexCompiler

namespace Path

theorem nil_iff {table : TransitionTable} {source target : StateId} :
    Path table source [] target ↔ Reaches (table.targets · .epsilon) source target := by
  constructor
  · intro path
    generalize spelled : ([] : List Char) = word at path
    induction path with
    | refl state => exact .refl
    | epsilon edge _ ih =>
      have first : Reaches (table.targets · .epsilon) _ _ := .step .refl edge
      exact first.trans (ih spelled)
    | literal => cases spelled
  · intro chain
    induction chain with
    | refl => exact .refl source
    | step _ edge ih =>
      have last : Path table _ [] _ := .epsilon edge (.refl _)
      exact ih.trans last

/-- A path on a word that is not empty moves without reading up to the edge that
    reads the first character. -/
theorem cons_iff {table : TransitionTable} {source target : StateId} {char : Char} {word : List Char} :
    Path table source (char :: word) target ↔
      ∃ before after, Reaches (table.targets · .epsilon) source before ∧
        ⟨before, .literal char, after⟩ ∈ table ∧ Path table after word target := by
  constructor
  · intro path
    generalize spelled : char :: word = whole at path
    induction path with
    | refl => cases spelled
    | epsilon edge _ ih =>
      obtain ⟨before, after, chain, reads, rest⟩ := ih spelled
      have first : Reaches (table.targets · .epsilon) _ _ := .step .refl edge
      exact ⟨before, after, first.trans chain, reads, rest⟩
    | @literal source after target _ _ edge rest =>
      cases spelled
      exact ⟨source, after, .refl, edge, rest⟩
  · rintro ⟨before, after, chain, reads, rest⟩
    exact (nil_iff.mpr chain).trans (.literal reads rest)

end Path

namespace Nfa

/-- Reading a word from a closure leads to the ends of the paths from its
    states. -/
theorem mem_foldl_advance {nfa : Nfa} {states : StateSet} {word : List Char} {target : StateId} :
    target ∈ word.foldl nfa.advance (nfa.closure states) ↔
      ∃ source ∈ states, Path nfa.transitions source word target := by
  induction word generalizing states with
  | nil => simp only [List.foldl_nil, mem_closure, Path.nil_iff]
  | cons char rest ih =>
    rw [List.foldl_cons, advance, ih]
    simp only [mem_move, mem_closure, Path.cons_iff]
    constructor
    · rintro ⟨after, ⟨before, ⟨source, member, chain⟩, reads⟩, path⟩
      exact ⟨source, member, before, after, chain, reads, path⟩
    · rintro ⟨source, member, before, after, chain, reads, path⟩
      exact ⟨after, ⟨before, ⟨source, member, chain⟩, reads⟩, path⟩

/-- The simulation is in a state after a word exactly when a path on the word
    leads there from the start. -/
theorem mem_simulate {nfa : Nfa} {word : List Char} {target : StateId} :
    target ∈ nfa.simulate word ↔ Path nfa.transitions nfa.start word target := by
  rw [simulate, initial, mem_foldl_advance]
  constructor
  · rintro ⟨source, member, path⟩
    rw [StateSet.mem_singleton_iff] at member
    exact member ▸ path
  · intro path
    exact ⟨nfa.start, StateSet.mem_singleton_iff.mpr rfl, path⟩

end Nfa

end RegexCompiler
