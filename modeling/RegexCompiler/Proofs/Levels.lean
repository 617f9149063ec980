import RegexCompiler.Proofs.Findings

namespace RegexCompiler

/-! ## Words of a length -/

/-- The words of a length over some letters, in the order of the letters. -/
def wordsOf (letters : List Char) : Nat → List (List Char)
  | 0 => [[]]
  | length + 1 => (wordsOf letters length).flatMap fun word => letters.map (word ++ [·])

/-- The words of at most a length, shorter ones first. -/
def wordsUpTo (letters : List Char) (length : Nat) : List (List Char) :=
  (List.range (length + 1)).flatMap (wordsOf letters)

section

variable {letters : List Char} {length : Nat} {word : List Char}

theorem mem_wordsOf : word ∈ wordsOf letters length ↔ word.length = length ∧ ∀ char ∈ word, char ∈ letters := by
  induction length generalizing word with
  | zero =>
    rw [wordsOf, List.mem_singleton, List.length_eq_zero_iff]
    constructor
    · rintro rfl
      exact ⟨rfl, by simp⟩
    · exact fun ⟨empty, _⟩ => empty
  | succ length ih =>
    simp only [wordsOf, List.mem_flatMap, List.mem_map, ih]
    constructor
    · rintro ⟨before, ⟨rfl, inside⟩, char, listed, rfl⟩
      refine ⟨List.length_append, ?_⟩
      simpa [or_imp, forall_and] using ⟨inside, listed⟩
    · rintro ⟨long, inside⟩
      rcases List.eq_nil_or_concat word with rfl | ⟨before, char, rfl⟩
      · cases long
      · rw [List.concat_eq_append] at long inside ⊢
        rw [List.length_append] at long
        rw [List.forall_mem_append] at inside
        exact ⟨before, ⟨Nat.succ.inj long, inside.1⟩, char, inside.2 char (.head _), rfl⟩

theorem mem_wordsUpTo :
    word ∈ wordsUpTo letters length ↔ word.length ≤ length ∧ ∀ char ∈ word, char ∈ letters := by
  simp [wordsUpTo, mem_wordsOf]

theorem wordsUpTo_succ : wordsUpTo letters (length + 1) = wordsUpTo letters length ++ wordsOf letters (length + 1) := by
  simp [wordsUpTo, List.range_succ]

theorem length_wordsOf : (wordsOf letters length).length = letters.length ^ length := by
  induction length with
  | zero => rfl
  | succ length ih => simp [wordsOf, List.length_flatMap, ih, Nat.pow_succ]

theorem length_wordsUpTo (two : letters.length = 2) : (wordsUpTo letters length).length + 1 = 2 ^ (length + 1) := by
  induction length with
  | zero => rfl
  | succ length ih =>
    rw [wordsUpTo_succ, List.length_append, length_wordsOf, two]
    omega

theorem nodup_wordsOf (distinct : letters.Nodup) : (wordsOf letters length).Nodup := by
  induction length with
  | zero => exact List.nodup_singleton _
  | succ length ih =>
    refine List.nodup_flatMap.mpr ⟨fun word _ => distinct.map fun c d same => by simpa using same, ?_⟩
    refine ih.imp fun differ => List.disjoint_left.mpr fun word member member' => differ ?_
    obtain ⟨_, _, rfl⟩ := List.mem_map.mp member
    obtain ⟨_, _, same⟩ := List.mem_map.mp member'
    exact (List.append_inj' same rfl).1.symm

theorem nodup_wordsUpTo (distinct : letters.Nodup) : (wordsUpTo letters length).Nodup := by
  induction length with
  | zero => exact List.nodup_singleton _
  | succ length ih =>
    rw [wordsUpTo_succ]
    refine List.nodup_append.mpr ⟨ih, nodup_wordsOf distinct, fun word short other long same => ?_⟩
    have less := (mem_wordsUpTo.mp short).1
    rw [same, (mem_wordsOf.mp long).1] at less
    omega

theorem wordsOf_eq_cons (first : Char) (others : List Char) (length : Nat) :
    ∃ rest, wordsOf (first :: others) length = List.replicate length first :: rest := by
  induction length with
  | zero => exact ⟨[], rfl⟩
  | succ length ih =>
    obtain ⟨rest, words⟩ := ih
    rw [wordsOf, words, List.flatMap_cons, List.map_cons, List.replicate_succ']
    exact ⟨_, rfl⟩

end

/-! ## Finding them -/

namespace Exploration

/-- The sets that were found are those of the words `found`, and those of the words
    `waiting` wait. -/
structure Lists (nfa : Nfa) (alphabet : Alphabet) (found waiting : List (List Char)) (e : Exploration) : Prop where
  alphabet_eq : e.dfa.alphabet = alphabet
  sets_eq : e.dfa.sets.toList = found.map nfa.simulate
  waiting_eq : e.waiting.map (·.2) = waiting.map nfa.simulate

namespace Lists

variable {nfa : Nfa} {alphabet : Alphabet} {found waiting : List (List Char)} {e : Exploration}

theorem initial (nfa : Nfa) (alphabet : Alphabet) : Lists nfa alphabet [[]] [[]] (Exploration.initial nfa alphabet) :=
  ⟨rfl, rfl, rfl⟩

theorem discover (lists : Lists nfa alphabet found waiting e) (source : StateId) {word : List Char} {char : Char}
    (nonempty : nfa.simulate (word ++ [char]) ≠ ∅) (new : nfa.simulate (word ++ [char]) ∉ found.map nfa.simulate) :
    Lists nfa alphabet (found ++ [word ++ [char]]) (waiting ++ [word ++ [char]])
      (follow nfa source (nfa.simulate word) e char) := by
  have next := nfa.simulate_concat word char
  rw [next] at nonempty new
  rw [← lists.sets_eq, Array.mem_toList_iff, ← Array.idxOf?_eq_none_iff] at new
  obtain ⟨gone, _⟩ | ⟨_, ⟨target, known, _⟩ | ⟨_, eq⟩⟩ := follow_cases nfa source (nfa.simulate word) e char
  · exact absurd gone nonempty
  · rw [Dfa.stateOf?, new] at known
    cases known
  · rw [eq]
    refine ⟨lists.alphabet_eq, ?_, ?_⟩
    · simp [Dfa.addTransition, Dfa.addState, lists.sets_eq, next]
    · simp [lists.waiting_eq, next]

theorem discoverAll (lists : Lists nfa alphabet found waiting e) (source : StateId) {word : List Char} {chars : List Char}
    (nonempty : ∀ char ∈ chars, nfa.simulate (word ++ [char]) ≠ ∅)
    (distinct : ((found ++ chars.map (word ++ [·])).map nfa.simulate).Nodup) :
    Lists nfa alphabet (found ++ chars.map (word ++ [·])) (waiting ++ chars.map (word ++ [·]))
      (chars.foldl (follow nfa source (nfa.simulate word)) e) := by
  induction chars generalizing found waiting e with
  | nil => simpa using lists
  | cons char rest ih =>
    have regroup (words : List (List Char)) : words ++ (char :: rest).map (word ++ [·]) =
        words ++ [word ++ [char]] ++ rest.map (word ++ [·]) := by simp
    rw [regroup] at distinct ⊢
    rw [regroup, List.foldl_cons]
    refine ih (lists.discover source (nonempty char (.head _)) ?_) (fun c member => nonempty c (.tail _ member)) distinct
    rw [List.map_append, List.map_append] at distinct
    have apart := (List.nodup_append.mp (List.nodup_append.mp distinct).1).2.2
    exact fun member => apart _ member _ (.head _) rfl

theorem take {word : List Char} (lists : Lists nfa alphabet found (word :: waiting) e) :
    ∃ source rest, run nfa e = run nfa (alphabet.toList.foldl (follow nfa source (nfa.simulate word)) ⟨e.dfa, rest⟩) ∧
      Lists nfa alphabet found waiting ⟨e.dfa, rest⟩ := by
  obtain ⟨dfa, items⟩ := e
  have waits := lists.waiting_eq
  cases items with
  | nil => cases waits
  | cons item rest =>
    obtain ⟨source, active⟩ := item
    rw [List.map_cons, List.map_cons, List.cons.injEq] at waits
    obtain ⟨rfl, waits⟩ := waits
    have alphabet_eq : dfa.alphabet = alphabet := lists.alphabet_eq
    exact ⟨source, rest, by rw [run.eq_2, expand, alphabet_eq], lists.alphabet_eq, lists.sets_eq, waits⟩

/-- The waiting words are taken up one after another, and each of them finds the words
    that are one letter longer. -/
theorem run_words {letters : List Char} {words rest : List (List Char)}
    (lists : Lists nfa alphabet found (words ++ rest) e)
    (goes : ∀ word ∈ words, alphabet.toList.filter (fun char => !(nfa.advance (nfa.simulate word) char).isEmpty) = letters)
    (distinct : ((found ++ words.flatMap fun word => letters.map (word ++ [·])).map nfa.simulate).Nodup) :
    ∃ later, run nfa later = run nfa e ∧
      Lists nfa alphabet (found ++ words.flatMap fun word => letters.map (word ++ [·]))
        (rest ++ words.flatMap fun word => letters.map (word ++ [·])) later := by
  induction words generalizing found rest e with
  | nil => exact ⟨e, rfl, by simpa using lists⟩
  | cons word words ih =>
    rw [List.cons_append] at lists
    obtain ⟨source, items, same, taken⟩ := lists.take
    have regroup (found : List (List Char)) :
        found ++ (word :: words).flatMap (fun word => letters.map (word ++ [·])) =
          found ++ letters.map (word ++ [·]) ++ words.flatMap fun word => letters.map (word ++ [·]) := by simp
    have skips : ∀ char ∈ alphabet.toList, (!(nfa.advance (nfa.simulate word) char).isEmpty) = false →
        nfa.advance (nfa.simulate word) char = ∅ := by simp
    have leads : ∀ char ∈ letters, nfa.simulate (word ++ [char]) ≠ ∅ := by
      intro char member
      rw [← goes word (.head _)] at member
      rw [nfa.simulate_concat]
      simpa using (List.mem_filter.mp member).2
    rw [foldl_follow_filter skips, goes word (.head _)] at same
    rw [regroup] at distinct
    have followed := taken.discoverAll source leads (List.nodup_append.mp (List.map_append ▸ distinct)).1
    rw [List.append_assoc] at followed
    obtain ⟨later, same', lists'⟩ := ih followed (fun w member => goes w (.tail _ member)) distinct
    rw [regroup, regroup]
    exact ⟨later, same'.trans same.symm, lists'⟩

end Lists

/-- If every shorter word over the letters goes on with just these, and no two words lead
    to the same set, then all words of one length wait at some point. -/
theorem exists_level {nfa : Nfa} {alphabet : Alphabet} {letters : List Char} {length : Nat}
    (goes : ∀ word, word.length < length → (∀ char ∈ word, char ∈ letters) →
      alphabet.toList.filter (fun char => !(nfa.advance (nfa.simulate word) char).isEmpty) = letters)
    (distinct : ((wordsUpTo letters length).map nfa.simulate).Nodup) :
    ∃ later, run nfa later = run nfa (initial nfa alphabet) ∧
      Lists nfa alphabet (wordsUpTo letters length) (wordsOf letters length) later := by
  induction length with
  | zero => exact ⟨_, rfl, .initial nfa alphabet⟩
  | succ length ih =>
    rw [wordsUpTo_succ] at distinct ⊢
    have earlier : ((wordsUpTo letters length).map nfa.simulate).Nodup := by
      rw [List.map_append] at distinct
      exact (List.nodup_append.mp distinct).1
    obtain ⟨level, same, lists⟩ := ih (fun word short => goes word (Nat.lt_succ_of_lt short)) earlier
    have inside (word : List Char) (member : word ∈ wordsOf letters length) :=
      goes word (Nat.lt_succ_of_le (mem_wordsOf.mp member).1.le) (mem_wordsOf.mp member).2
    rw [← List.append_nil (wordsOf letters length)] at lists
    obtain ⟨later, same', lists'⟩ := lists.run_words inside distinct
    exact ⟨later, same'.trans same, lists'⟩

end Exploration

end RegexCompiler
