import Mathlib
import RegexCompiler.Proofs.Determinization

/-!
The states of the deterministic automaton are numbered in the shortlex order of the words that lead to
them (`toDfa_enumerates`).
-/

namespace RegexCompiler

/-! ### Shortlex order -/

/-- Shorter words come first, and words of one length in the order of their code
    points. -/
abbrev Shortlex : List Char → List Char → Prop :=
  List.Shortlex (· < ·)

namespace Shortlex

theorem trans {u v w : List Char} (left : Shortlex u v) (right : Shortlex v w) : Shortlex u w := by
  rcases List.shortlex_def.mp left with shorter | ⟨same, less⟩
  · rcases List.shortlex_def.mp right with shorter' | ⟨same', _⟩
    · exact .of_length_lt (Nat.lt_trans shorter shorter')
    · exact .of_length_lt (same' ▸ shorter)
  · rcases List.shortlex_def.mp right with shorter' | ⟨same', less'⟩
    · exact .of_length_lt (same ▸ shorter')
    · exact .of_lex (same.trans same') (List.lt_trans less less')

theorem append_singleton {u v : List Char} (less : Shortlex u v) (c d : Char) : Shortlex (u ++ [c]) (v ++ [d]) := by
  rcases List.shortlex_def.mp less with shorter | ⟨same, lex⟩
  · exact .of_length_lt (by simpa using shorter)
  · refine .of_lex (by simpa using same) ?_
    clear less
    induction lex with
    | nil => cases same
    | cons _ ih => exact .cons (ih (Nat.succ.inj same))
    | rel first => exact .rel first

theorem append_last (u : List Char) {c d : Char} (less : c < d) : Shortlex (u ++ [c]) (u ++ [d]) :=
  List.Shortlex.append_left ((List.shortlex_singleton_iff c d).mpr less) u

theorem exists_first (P : List Char → Prop) {word : List Char} (holds : P word) :
    ∃ first, P first ∧ ∀ other, P other → ¬ Shortlex other first := by
  have chars : WellFounded fun c d : Char => c < d := InvImage.wf Char.toNat Nat.lt_wfRel.wf
  exact (List.Shortlex.wf chars).has_min {w | P w} ⟨word, holds⟩

end Shortlex

/-! ### First entries -/

/-- The order in which the exploration follows characters: by state, and by code
    point for one state. -/
abbrev Precedes : StateId × Char → StateId × Char → Prop :=
  Prod.Lex (· < ·) (· < ·)

namespace Dfa

/-- The transition leads to a state from an earlier one, and precedes all
    transitions to later states. -/
structure IsEntry (dfa : Dfa) (state source : StateId) (char : Char) : Prop where
  earlier : source < state
  leads : dfa.transition? source char = some state
  first : ∀ source' char' later, dfa.transition? source' char' = some later → state < later →
    Precedes (source, char) (source', char')

/-- A transition that follows all others replaces none of them. -/
theorem transition?_addTransition_of_some {dfa : Dfa} {source state target next : StateId} {char label : Char}
    (settled : ∀ s c t, dfa.transition? s c = some t → Precedes (s, c) (source, char))
    (leads : dfa.transition? state label = some next) :
    (dfa.addTransition source char target).transition? state label = some next := by
  rw [transition?_addTransition]
  split
  · rename_i same
    obtain ⟨rfl, rfl⟩ := same
    exact absurd (settled source char next leads) (irrefl _)
  · exact leads

theorem IsEntry.addTransition {dfa : Dfa} {state source : StateId} {char : Char} (entry : dfa.IsEntry state source char)
    {source' : StateId} {char' : Char} (target : StateId)
    (settled : ∀ s c t, dfa.transition? s c = some t → Precedes (s, c) (source', char')) :
    (dfa.addTransition source' char' target).IsEntry state source char where
  earlier := entry.earlier
  leads := transition?_addTransition_of_some settled entry.leads
  first := by
    intro s c later leads after
    rw [transition?_addTransition] at leads
    split at leads
    · rename_i same
      obtain ⟨rfl, rfl⟩ := same
      exact settled source char state entry.leads
    · exact entry.first s c later leads after

end Dfa

theorem Dfa.IsEntry.addState {dfa : Dfa} {state source : StateId} {char : Char} (entry : dfa.IsEntry state source char)
    (added : StateSet) : (dfa.addState added).2.IsEntry state source char :=
  ⟨entry.earlier, entry.leads, entry.first⟩

/-- Once a transition is added that follows all others, all of them precede
    whatever comes after it. -/
theorem Dfa.settled_addTransition {dfa : Dfa} {source : StateId} {char : Char} {later : List (StateId × Char)}
    (settled : ∀ s c t, dfa.transition? s c = some t → Precedes (s, c) (source, char))
    (ascending : ((source, char) :: later).Pairwise Precedes) (target : StateId) :
    ∀ s c t, (dfa.addTransition source char target).transition? s c = some t →
      ∀ pair ∈ later, Precedes (s, c) pair := by
  intro s c t leads pair member
  have after := List.rel_of_pairwise_cons ascending member
  rw [transition?_addTransition] at leads
  split at leads
  · rename_i same
    obtain ⟨rfl, rfl⟩ := same
    exact after
  · exact trans_of Precedes (settled s c t leads) after

/-! ### What is still to be followed -/

namespace Exploration

/-- The characters that are still to be followed with their states, in order. -/
def agenda (alphabet : Alphabet) (source : StateId) (remaining : List Char) (waiting : List (StateId × StateSet)) :
    List (StateId × Char) :=
  remaining.map (source, ·) ++ waiting.flatMap fun (state, _) => alphabet.toList.map (state, ·)

theorem mem_agenda {alphabet : Alphabet} {source state : StateId} {remaining : List Char}
    {waiting : List (StateId × StateSet)} {char : Char} :
    (state, char) ∈ agenda alphabet source remaining waiting ↔
      (state = source ∧ char ∈ remaining) ∨ ((∃ active, (state, active) ∈ waiting) ∧ char ∈ alphabet) := by
  simp only [agenda, List.mem_append, List.mem_map, List.mem_flatMap, Prod.mk.injEq, Prod.exists,
    Std.ExtTreeSet.mem_toList]
  constructor
  · rintro (⟨c, member, rfl, rfl⟩ | ⟨s, active, member, c, listed, rfl, rfl⟩)
    · exact .inl ⟨rfl, member⟩
    · exact .inr ⟨⟨active, member⟩, listed⟩
  · rintro (⟨rfl, member⟩ | ⟨⟨active, member⟩, listed⟩)
    · exact .inl ⟨char, member, rfl, rfl⟩
    · exact .inr ⟨state, active, member, char, listed, rfl, rfl⟩

theorem ascending_characters (alphabet : Alphabet) (state : StateId) :
    (alphabet.toList.map (state, ·)).Pairwise Precedes := by
  refine List.pairwise_map.mpr ?_
  exact alphabet.ordered_toList.imp fun less => .right _ (compare_lt_iff_lt.mp less)

/-- What holds beside `Explores` at every point of the exploration: no set has
    two states, the transitions that are known precede those still to be followed,
    and every state but the start was entered before all later ones. -/
structure Numbers (nfa : Nfa) (alphabet : Alphabet) (source : StateId) (remaining : List Char)
    (e : Exploration) : Prop extends Explores nfa alphabet source remaining e where
  distinct : ∀ state state' states, e.dfa.states? state = some states → e.dfa.states? state' = some states →
    state = state'
  ascending : (agenda alphabet source remaining e.waiting).Pairwise Precedes
  settled : ∀ state char target, e.dfa.transition? state char = some target →
    ∀ pair ∈ agenda alphabet source remaining e.waiting, Precedes (state, char) pair
  entered : ∀ state states, e.dfa.states? state = some states → state ≠ 0 →
    ∃ source char, e.dfa.IsEntry state source char

namespace Numbers

variable {nfa : Nfa} {alphabet : Alphabet} {source : StateId} {char : Char} {remaining : List Char} {e : Exploration}

theorem known_of_agenda (inv : Numbers nfa alphabet source remaining e) {active : StateSet}
    (known : e.dfa.states? source = some active) {pair : StateId × Char}
    (member : pair ∈ agenda alphabet source remaining e.waiting) : ∃ states, e.dfa.states? pair.1 = some states := by
  rcases mem_agenda.mp member with ⟨same, _⟩ | ⟨⟨states, waits⟩, _⟩
  · exact ⟨active, same ▸ known⟩
  · exact ⟨states, inv.waits _ states waits⟩

theorem settled_next (inv : Numbers nfa alphabet source (char :: remaining) e) :
    ∀ s c t, e.dfa.transition? s c = some t → Precedes (s, c) (source, char) :=
  fun s c t leads => inv.settled s c t leads _ (.head _)

theorem skip (inv : Numbers nfa alphabet source (char :: remaining) e) {active : StateSet}
    (known : e.dfa.states? source = some active) (gone : nfa.advance active char = ∅) :
    Numbers nfa alphabet source remaining e where
  toExplores := inv.toExplores.skip known gone
  distinct := inv.distinct
  ascending := inv.ascending.of_cons
  settled := fun s c t leads pair member => inv.settled s c t leads pair (.tail _ member)
  entered := inv.entered

/-- A transition to a known state enters nothing for the first time. -/
theorem addTransition (inv : Numbers nfa alphabet source (char :: remaining) e) {active : StateSet}
    (known : e.dfa.states? source = some active) (listed : char ∈ alphabet)
    (nonempty : nfa.advance active char ≠ ∅) {target : StateId}
    (reached : e.dfa.states? target = some (nfa.advance active char)) :
    Numbers nfa alphabet source remaining { e with dfa := e.dfa.addTransition source char target } where
  toExplores := inv.toExplores.addTransition known listed nonempty reached
  distinct := inv.distinct
  ascending := inv.ascending.of_cons
  settled := Dfa.settled_addTransition inv.settled_next inv.ascending target
  entered := by
    intro state states known' notStart
    obtain ⟨s, c, entry⟩ := inv.entered state states known' notStart
    exact ⟨s, c, entry.addTransition target inv.settled_next⟩

theorem discover (inv : Numbers nfa alphabet source (char :: remaining) e) {active : StateSet}
    (known : e.dfa.states? source = some active) (listed : char ∈ alphabet)
    (nonempty : nfa.advance active char ≠ ∅) (unknown : e.dfa.stateOf? (nfa.advance active char) = none)
    (room : e.dfa.sets.size < UInt32.size) :
    Numbers nfa alphabet source remaining
      { dfa := (e.dfa.addState (nfa.advance active char)).2.addTransition source char e.dfa.numStates
        waiting := e.waiting ++ [(e.dfa.numStates, nfa.advance active char)] } := by
  have explores := (inv.toExplores.addState (nfa.advance active char) room).addTransition
    (Dfa.states?_addState_of_some _ known) listed nonempty (Dfa.states?_addState_numStates _ room)
  have number : e.dfa.numStates.toNat = e.dfa.sets.size := UInt32.toNat_ofNat_of_lt' room
  have below {state : StateId} (found : ∃ states, e.dfa.states? state = some states) : state < e.dfa.numStates := by
    rw [UInt32.lt_iff_toNat_lt, number]
    exact Dfa.exists_states?_iff.mp found
  have ascending : ((source, char) :: agenda alphabet source remaining
      (e.waiting ++ [(e.dfa.numStates, nfa.advance active char)])).Pairwise Precedes := by
    have behind : agenda alphabet source (char :: remaining)
        (e.waiting ++ [(e.dfa.numStates, nfa.advance active char)]) =
          agenda alphabet source (char :: remaining) e.waiting ++ alphabet.toList.map (e.dfa.numStates, ·) := by
      simp [agenda]
    change (agenda alphabet source (char :: remaining) _).Pairwise Precedes
    rw [behind]
    refine List.pairwise_append.mpr ⟨inv.ascending, ascending_characters alphabet _, ?_⟩
    intro pair member later isNew
    obtain ⟨c, _, rfl⟩ := List.mem_map.mp isNew
    exact .left _ _ (below (inv.known_of_agenda known member))
  refine ⟨explores, ?_, ascending.of_cons, Dfa.settled_addTransition inv.settled_next ascending _, ?_⟩
  · intro state state' states known known'
    rcases Dfa.states?_addState_cases known with old | ⟨rfl, rfl⟩
    · rcases Dfa.states?_addState_cases known' with old' | ⟨rfl, rfl⟩
      · exact inv.distinct state state' states old old'
      · exact absurd old (Dfa.states?_ne_of_stateOf?_eq_none unknown state)
    · rcases Dfa.states?_addState_cases known' with old' | ⟨rfl, _⟩
      · exact absurd old' (Dfa.states?_ne_of_stateOf?_eq_none unknown state')
      · rfl
  · intro state states known' notStart
    rcases Dfa.states?_addState_cases known' with old | ⟨rfl, rfl⟩
    · obtain ⟨s, c, entry⟩ := inv.entered state states old notStart
      exact ⟨s, c, (entry.addState _).addTransition _ inv.settled_next⟩
    · refine ⟨source, char, below ⟨active, known⟩, ?_, ?_⟩
      · rw [Dfa.transition?_addTransition, if_pos ⟨rfl, rfl⟩]
      · intro s c later leads after
        obtain ⟨_, _, _, _, reached⟩ := explores.sound s c later leads
        have inside := Dfa.exists_states?_iff.mp ⟨_, reached⟩
        rw [UInt32.lt_iff_toNat_lt, number] at after
        simp only [Dfa.addTransition, Dfa.addState, Array.size_push] at inside
        omega

theorem after_follow (inv : Numbers nfa alphabet source (char :: remaining) e) {active : StateSet}
    (known : e.dfa.states? source = some active) (listed : char ∈ alphabet)
    (room : (follow nfa source active e char).dfa.sets.size ≤ UInt32.size) :
    Numbers nfa alphabet source remaining (follow nfa source active e char) := by
  obtain ⟨gone, same⟩ | ⟨nonempty, ⟨target, found, eq⟩ | ⟨unknown, eq⟩⟩ := follow_cases nfa source active e char
  · rw [same]
    exact inv.skip known gone
  · rw [eq] at room ⊢
    exact inv.addTransition known listed nonempty (Dfa.states?_of_stateOf? room found)
  · rw [eq] at room ⊢
    have more : e.dfa.sets.size < UInt32.size := by
      simp only [Dfa.addState, Dfa.addTransition, Array.size_push] at room
      omega
    exact inv.discover known listed nonempty unknown more

theorem take {dfa : Dfa} {next : StateId} {active : StateSet} {rest : List (StateId × StateSet)}
    (inv : Numbers nfa alphabet source [] ⟨dfa, (next, active) :: rest⟩) :
    Numbers nfa alphabet next alphabet.toList ⟨dfa, rest⟩ where
  toExplores := inv.toExplores.take
  distinct := inv.distinct
  ascending := inv.ascending
  settled := inv.settled
  entered := inv.entered

end Numbers

theorem numbers_initial (nfa : Nfa) (alphabet : Alphabet) : Numbers nfa alphabet 0 [] (initial nfa alphabet) where
  toExplores := explores_initial nfa alphabet
  distinct := by
    intro state state' states known known'
    rcases Dfa.states?_addState_cases known with old | ⟨rfl, _⟩
    · cases old
    · rcases Dfa.states?_addState_cases known' with old' | ⟨rfl, _⟩
      · cases old'
      · rfl
  ascending := by
    have only : agenda alphabet 0 [] (initial nfa alphabet).waiting = alphabet.toList.map ((0 : StateId), ·) := by
      simp [agenda, initial, Dfa.addState, Dfa.numStates]
    rw [only]
    exact ascending_characters alphabet 0
  settled := by
    intro state char target leads
    have none : (initial nfa alphabet).dfa.transition? state char = none := Std.ExtTreeMap.getElem?_empty
    rw [none] at leads
    cases leads
  entered := by
    intro state states known notStart
    rcases Dfa.states?_addState_cases known with old | ⟨rfl, _⟩
    · cases old
    · exact absurd rfl notStart

end Exploration

/-! ### The words that lead to a state -/

section

variable {nfa : Nfa} {alphabet : Alphabet} (room : (nfa.toDfa alphabet).sets.size ≤ UInt32.size)
include room

theorem Nfa.numbers_toDfa : ∃ last, Exploration.Numbers nfa alphabet last []
    ⟨Exploration.run nfa (Exploration.initial nfa alphabet), []⟩ :=
  Exploration.run_induction Exploration.Numbers.toExplores
    (fun inv known listed less => inv.after_follow known listed less) Exploration.Numbers.take
    (Exploration.numbers_initial nfa alphabet) room

namespace Dfa

theorem exists_isEntry {state : StateId} {states : StateSet}
    (known : (nfa.toDfa alphabet).states? state = some states) (notStart : state ≠ 0) :
    ∃ source char, (nfa.toDfa alphabet).IsEntry state source char := by
  obtain ⟨last, inv⟩ := Nfa.numbers_toDfa room
  obtain ⟨source, char, entry⟩ := inv.entered state states known notStart
  exact ⟨source, char, entry.earlier, entry.leads, entry.first⟩

theorem known_of_transition? {source target : StateId} {char : Char}
    (leads : (nfa.toDfa alphabet).transition? source char = some target) :
    char ∈ alphabet ∧ ∃ active, (nfa.toDfa alphabet).states? source = some active ∧ nfa.advance active char ≠ ∅ ∧
      (nfa.toDfa alphabet).states? target = some (nfa.advance active char) := by
  obtain ⟨last, inv⟩ := Nfa.explores_toDfa room
  exact inv.sound source char target leads

theorem exists_run {state : StateId} {states : StateSet} (known : (nfa.toDfa alphabet).states? state = some states) :
    ∃ word, (nfa.toDfa alphabet).run word = some state := by
  induction number : state.toNat using Nat.strong_induction_on generalizing state states with
  | h _ ih =>
    by_cases isStart : state = 0
    · exact ⟨[], by rw [run_nil, start_toDfa, isStart]⟩
    · obtain ⟨source, char, entry⟩ := exists_isEntry room known isStart
      obtain ⟨_, active, known', _⟩ := known_of_transition? room entry.leads
      have less := UInt32.lt_iff_toNat_lt.mp entry.earlier
      obtain ⟨word, runs⟩ := ih source.toNat (number ▸ less) known' rfl
      refine ⟨word ++ [char], ?_⟩
      rw [run_append_singleton, runs]
      exact entry.leads

/-- Some word to an earlier state comes before any word to a later one. -/
theorem exists_run_before {state later : StateId} {word : List Char} (less : state < later)
    (runs : (nfa.toDfa alphabet).run word = some later) :
    ∃ before, (nfa.toDfa alphabet).run before = some state ∧ Shortlex before word := by
  -- The entry of the earlier state precedes the last transition of the word.
  induction word using List.reverseRecOn generalizing state later with
  | nil =>
    rw [run_nil, start_toDfa] at runs
    cases runs
    rw [UInt32.lt_iff_toNat_lt] at less
    cases less
  | append_singleton word char ih =>
    rw [run_append_singleton] at runs
    obtain ⟨middle, before, leads⟩ := Option.bind_eq_some_iff.mp runs
    by_cases isStart : state = 0
    · exact ⟨[], by rw [run_nil, start_toDfa, isStart], .of_length_lt (by simp)⟩
    · obtain ⟨_, _, _, _, reached⟩ := known_of_transition? room leads
      obtain ⟨states, known⟩ : ∃ states, (nfa.toDfa alphabet).states? state = some states := by
        have inside := exists_states?_iff.mp ⟨_, reached⟩
        exact exists_states?_iff.mpr (Nat.lt_trans (UInt32.lt_iff_toNat_lt.mp less) inside)
      obtain ⟨source, label, entry⟩ := exists_isEntry room known isStart
      have enters {word : List Char} (runs : (nfa.toDfa alphabet).run word = some source) :
          (nfa.toDfa alphabet).run (word ++ [label]) = some state := by
        rw [run_append_singleton, runs]
        exact entry.leads
      cases entry.first middle char later leads less with
      | left _ _ earlier =>
        obtain ⟨word', runs', shorter⟩ := ih earlier before
        exact ⟨word' ++ [label], enters runs', shorter.append_singleton label char⟩
      | right _ smaller => exact ⟨word ++ [label], enters before, .append_last word smaller⟩

/-- A known state is what a word leads to exactly when the word is over the
    alphabet and leads the simulation to the set of the state. -/
theorem run_eq_some_iff {state : StateId} {states : StateSet}
    (known : (nfa.toDfa alphabet).states? state = some states) {word : List Char} :
    (nfa.toDfa alphabet).run word = some state ↔ (∀ char ∈ word, char ∈ alphabet) ∧ nfa.simulate word = states := by
  constructor
  · intro runs
    obtain ⟨stands, _, _, inside⟩ := Nfa.simulates_of_run room runs
    exact ⟨inside, Option.some.inj (stands.symm.trans known)⟩
  · rintro ⟨inside, rfl⟩
    have nonempty : nfa.simulate word ≠ ∅ := by
      obtain ⟨other, runs⟩ := exists_run room known
      obtain ⟨stands, _, ends, _⟩ := Nfa.simulates_of_run room runs
      rwa [← Option.some.inj (stands.symm.trans known)]
    obtain ⟨target, runs⟩ := (Nfa.exists_run_iff room word).mpr ⟨inside, nonempty⟩
    obtain ⟨stands, _⟩ := Nfa.simulates_of_run room runs
    obtain ⟨last, inv⟩ := Nfa.numbers_toDfa room
    rw [runs, inv.distinct target state _ stands known]

end Dfa

end

/-- The word over the alphabet leads the simulation to the set, and no word before
    it in shortlex order does. -/
structure LeastAccess (nfa : Nfa) (alphabet : Alphabet) (states : StateSet) (word : List Char) : Prop where
  listed : ∀ char ∈ word, char ∈ alphabet
  reaches : nfa.simulate word = states
  least : ∀ other, (∀ char ∈ other, char ∈ alphabet) → nfa.simulate other = states → ¬ Shortlex other word

/-- The states are numbers for the sets that the simulation of an automaton can be
    in after words over an alphabet, in the shortlex order of those words. -/
structure Dfa.Enumerates (dfa : Dfa) (nfa : Nfa) (alphabet : Alphabet) : Prop where
  start_eq : dfa.start = some 0
  known_iff : ∀ state, state < dfa.numStates ↔ ∃ states, dfa.states? state = some states
  stands_iff : ∀ states, (∃ state, dfa.states? state = some states) ↔
    states ≠ ∅ ∧ ∃ word, (∀ char ∈ word, char ∈ alphabet) ∧ nfa.simulate word = states
  distinct : ∀ state state' states, dfa.states? state = some states → dfa.states? state' = some states →
    state = state'
  exists_least : ∀ state states, dfa.states? state = some states → ∃ word, LeastAccess nfa alphabet states word
  lt_iff : ∀ state state' states states' word word', dfa.states? state = some states →
    dfa.states? state' = some states' → LeastAccess nfa alphabet states word →
      LeastAccess nfa alphabet states' word' → (state < state' ↔ Shortlex word word')
  inside : ∀ source char target, dfa.transition? source char = some target →
    source < dfa.numStates ∧ target < dfa.numStates ∧ char ∈ alphabet
  leads_iff : ∀ source states char, dfa.states? source = some states → char ∈ alphabet →
    ((∃ target, dfa.transition? source char = some target) ↔ nfa.advance states char ≠ ∅)

section

variable {nfa : Nfa} {alphabet : Alphabet} (room : (nfa.toDfa alphabet).sets.size ≤ UInt32.size)
include room

/-- Every state stands for a set that the simulation can be in, and every such set
    has a state. -/
theorem Dfa.exists_states?_toDfa_iff {states : StateSet} :
    (∃ state, (nfa.toDfa alphabet).states? state = some states) ↔
      states ≠ ∅ ∧ ∃ word, (∀ char ∈ word, char ∈ alphabet) ∧ nfa.simulate word = states := by
  constructor
  · rintro ⟨state, known⟩
    obtain ⟨word, runs⟩ := exists_run room known
    obtain ⟨_, _, ends, _⟩ := Nfa.simulates_of_run room runs
    obtain ⟨listed, rfl⟩ := (run_eq_some_iff room known).mp runs
    exact ⟨ends, word, listed, rfl⟩
  · rintro ⟨nonempty, word, listed, rfl⟩
    obtain ⟨state, runs⟩ := (Nfa.exists_run_iff room word).mpr ⟨listed, nonempty⟩
    exact ⟨state, (Nfa.simulates_of_run room runs).1⟩

/-- A character leads somewhere from a state unless it leaves none of its members
    active. -/
theorem Dfa.exists_transition?_toDfa_iff {source : StateId} {states : StateSet} {char : Char}
    (known : (nfa.toDfa alphabet).states? source = some states) (listed : char ∈ alphabet) :
    (∃ target, (nfa.toDfa alphabet).transition? source char = some target) ↔ nfa.advance states char ≠ ∅ := by
  constructor
  · rintro ⟨target, leads⟩
    obtain ⟨_, active, known', nonempty, _⟩ := known_of_transition? room leads
    rwa [Option.some.inj (known.symm.trans known')]
  · intro nonempty
    obtain ⟨last, inv⟩ := Nfa.explores_toDfa room
    obtain edge | waits | ⟨_, none⟩ := inv.complete source states char known listed nonempty
    · exact edge
    · cases waits
    · cases none

namespace LeastAccess

theorem exists_of_states? {state : StateId} {states : StateSet}
    (known : (nfa.toDfa alphabet).states? state = some states) : ∃ word, LeastAccess nfa alphabet states word := by
  obtain ⟨word, runs⟩ := Dfa.exists_run room known
  obtain ⟨first, runsFirst, least⟩ :=
    Shortlex.exists_first (fun other => (nfa.toDfa alphabet).run other = some state) runs
  obtain ⟨listed, reaches⟩ := (Dfa.run_eq_some_iff room known).mp runsFirst
  refine ⟨first, listed, reaches, fun other listed' reaches' => ?_⟩
  exact least other ((Dfa.run_eq_some_iff room known).mpr ⟨listed', reaches'⟩)

variable {state state' : StateId} {states states' : StateSet} {word word' : List Char}

theorem before (access : LeastAccess nfa alphabet states word) (access' : LeastAccess nfa alphabet states' word')
    (known : (nfa.toDfa alphabet).states? state = some states)
    (known' : (nfa.toDfa alphabet).states? state' = some states') (less : state < state') : Shortlex word word' := by
  have runs := (Dfa.run_eq_some_iff room known').mpr ⟨access'.listed, access'.reaches⟩
  obtain ⟨other, runsOther, earlier⟩ := Dfa.exists_run_before room less runs
  obtain ⟨listed, reaches⟩ := (Dfa.run_eq_some_iff room known).mp runsOther
  rcases trichotomous_of Shortlex other word with below | rfl | above
  · exact absurd below (access.least other listed reaches)
  · exact earlier
  · exact above.trans earlier

theorem lt_iff (access : LeastAccess nfa alphabet states word) (access' : LeastAccess nfa alphabet states' word')
    (known : (nfa.toDfa alphabet).states? state = some states)
    (known' : (nfa.toDfa alphabet).states? state' = some states') : state < state' ↔ Shortlex word word' := by
  constructor
  · exact access.before room access' known known'
  · intro less
    by_cases same : state = state'
    · subst same
      obtain rfl : states = states' := Option.some.inj (known.symm.trans known')
      exact absurd less (access'.least word access.listed access.reaches)
    · rcases UInt32.lt_or_lt_of_ne same with below | above
      · exact below
      · exact absurd less (asymm_of Shortlex (access'.before room access known' known above))

end LeastAccess

end

/-- The states of the deterministic automaton are numbered from the start on, each
    non-empty set of the simulation once, in the order of their first words. -/
theorem toDfa_enumerates (nfa : Nfa) (alphabet : Alphabet) (few : (nfa.toDfa alphabet).sets.size < UInt32.size) :
    (nfa.toDfa alphabet).Enumerates nfa alphabet := by
  have room := Nat.le_of_lt few
  obtain ⟨last, inv⟩ := Nfa.numbers_toDfa room
  have known_iff (state : StateId) : state < (nfa.toDfa alphabet).numStates ↔
      ∃ states, (nfa.toDfa alphabet).states? state = some states := by
    have count : (nfa.toDfa alphabet).numStates.toNat = (nfa.toDfa alphabet).sets.size :=
      UInt32.toNat_ofNat_of_lt' few
    rw [UInt32.lt_iff_toNat_lt, count, Dfa.exists_states?_iff]
  exact {
    start_eq := Dfa.start_toDfa nfa alphabet
    known_iff
    stands_iff := fun _ => Dfa.exists_states?_toDfa_iff room
    distinct := inv.distinct
    exists_least := fun _ _ known => LeastAccess.exists_of_states? room known
    lt_iff := fun _ _ _ _ _ _ known known' access access' => access.lt_iff room access' known known'
    inside := by
      intro source char target leads
      obtain ⟨listed, active, known, _, reached⟩ := Dfa.known_of_transition? room leads
      exact ⟨(known_iff source).mpr ⟨active, known⟩, (known_iff target).mpr ⟨_, reached⟩, listed⟩
    leads_iff := fun _ _ _ known listed => Dfa.exists_transition?_toDfa_iff room known listed }

/-- An automaton in which two words lead to the same state, without states that
    were handed out. -/
def Nfa.fork : Nfa :=
  let builder : Builder := {}
  ((builder.connectLiteral 0 'b' 2).connectLiteral 0 'a' 1).connectLiteral 1 'b' 2 |>.finish 0 2

theorem toDfa_enumerates_fork :
    (Nfa.fork.toDfa (Alphabet.ofList ['c', 'b', 'a'])).sets.size < UInt32.size ∧
    (Nfa.fork.toDfa (Alphabet.ofList ['c', 'b', 'a'])).Enumerates Nfa.fork (Alphabet.ofList ['c', 'b', 'a']) ∧
    (Nfa.fork.toDfa (Alphabet.ofList ['c', 'b', 'a'])).sets.toList.map (·.toList) = [[0], [1], [2]] := by
  have few : (Nfa.fork.toDfa (Alphabet.ofList ['c', 'b', 'a'])).sets.size < UInt32.size := by cbv
  exact ⟨few, toDfa_enumerates Nfa.fork (Alphabet.ofList ['c', 'b', 'a']) few, by cbv⟩

end RegexCompiler
