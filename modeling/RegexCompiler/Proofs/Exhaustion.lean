import Mathlib
import RegexCompiler.Proofs.Determinization
import RegexCompiler.Proofs.Rounds

namespace RegexCompiler

/-! ### States that can be entered -/

namespace TransitionTable

/-- The targets of all transitions. -/
def targetSet (table : TransitionTable) : StateSet :=
  table.toList.foldl (fun found row => found ∪ row.2) ∅

theorem mem_targetSet {table : TransitionTable} {state : StateId} :
    state ∈ table.targetSet ↔ ∃ transition ∈ table, transition.target = state := by
  have along (rows : List ((StateId × Symbol) × StateSet)) (found : StateSet) :
      state ∈ rows.foldl (fun found row => found ∪ row.2) found ↔ state ∈ found ∨ ∃ row ∈ rows, state ∈ row.2 := by
    induction rows generalizing found with
    | nil => simp
    | cons row rest ih => simp only [List.foldl_cons, ih, Std.ExtTreeSet.mem_union_iff, List.exists_mem_cons_iff, or_assoc]
  rw [targetSet, along, or_iff_right (StateSet.not_mem_empty state)]
  constructor
  · rintro ⟨⟨⟨source, symbol⟩, targets⟩, listed, member⟩
    have row : table.row? source symbol = some targets := Std.ExtTreeMap.mem_toList_iff_getElem?_eq_some.mp listed
    refine ⟨⟨source, symbol, state⟩, ?_, rfl⟩
    rw [mem_def, (row?_eq_some_iff.mp row).2]
    exact member
  · rintro ⟨⟨source, symbol, target⟩, member, rfl⟩
    have nonempty : table.targets source symbol ≠ ∅ := by
      intro none
      rw [mem_def, none] at member
      exact StateSet.not_mem_empty target member
    have row : table.row? source symbol = some (table.targets source symbol) := row?_eq_some_iff.mpr ⟨nonempty, rfl⟩
    exact ⟨((source, symbol), _), Std.ExtTreeMap.mem_toList_iff_getElem?_eq_some.mpr row, member⟩

end TransitionTable

namespace Nfa

/-- The start state and all targets of transitions, whether or not they were
    handed out. -/
def enterable (nfa : Nfa) : StateSet :=
  nfa.transitions.targetSet.insert nfa.start

theorem mem_enterable {nfa : Nfa} {state : StateId} :
    state ∈ nfa.enterable ↔ state = nfa.start ∨ ∃ transition ∈ nfa.transitions, transition.target = state := by
  rw [enterable, StateSet.mem_insert_iff, TransitionTable.mem_targetSet]

theorem enterable_of_mem {nfa : Nfa} {source target : StateId} {symbol : Symbol}
    (member : ⟨source, symbol, target⟩ ∈ nfa.transitions) : target ∈ nfa.enterable :=
  mem_enterable.mpr (.inr ⟨⟨source, symbol, target⟩, member, rfl⟩)

theorem closure_enterable {nfa : Nfa} {states : StateSet} (inside : ∀ state ∈ states, state ∈ nfa.enterable) :
    ∀ state ∈ nfa.closure states, state ∈ nfa.enterable := by
  intro state member
  obtain ⟨source, given, chain⟩ := mem_closure.mp member
  cases chain with
  | refl => exact inside _ given
  | step _ edge => exact enterable_of_mem edge

theorem initial_enterable (nfa : Nfa) : ∀ state ∈ nfa.initial, state ∈ nfa.enterable := by
  refine closure_enterable fun state member => mem_enterable.mpr (.inl ?_)
  exact StateSet.mem_singleton_iff.mp member

theorem advance_enterable (nfa : Nfa) (active : StateSet) (char : Char) :
    ∀ state ∈ nfa.advance active char, state ∈ nfa.enterable := by
  refine closure_enterable fun state member => ?_
  obtain ⟨source, _, edge⟩ := mem_move.mp member
  exact enterable_of_mem edge

end Nfa

/-- A set has one subset less than a power of two that is not empty. -/
theorem StateSet.length_le_two_pow {sets : List StateSet} {bound : StateSet} (distinct : sets.Nodup)
    (inside : ∀ states ∈ sets, states ≠ ∅ ∧ ∀ state ∈ states, state ∈ bound) :
    sets.length ≤ 2 ^ bound.size - 1 := by
  let members (states : StateSet) : Finset StateId := states.toList.toFinset
  have mem_members (states : StateSet) (state : StateId) : state ∈ members states ↔ state ∈ states := by
    rw [List.mem_toFinset, Std.ExtTreeSet.mem_toList]
  have injective : Function.Injective members := by
    intro left right same
    refine Std.ExtTreeSet.ext_mem fun state => ?_
    rw [← mem_members, same, mem_members]
  have subsets : (sets.map members).toFinset ⊆ (members bound).powerset.erase ∅ := by
    intro subset member
    obtain ⟨states, listed, rfl⟩ := List.mem_map.mp (List.mem_toFinset.mp member)
    obtain ⟨nonempty, within⟩ := inside states listed
    refine Finset.mem_erase.mpr ⟨?_, Finset.mem_powerset.mpr fun state => ?_⟩
    · have none : members ∅ = ∅ := by simp [members]
      rw [← none]
      exact injective.ne nonempty
    · rw [mem_members, mem_members]
      exact within state
  calc sets.length = (sets.map members).toFinset.card := by
        rw [List.toFinset_card_of_nodup (distinct.map injective), List.length_map]
    _ ≤ ((members bound).powerset.erase ∅).card := Finset.card_le_card subsets
    _ = 2 ^ bound.size - 1 := by
        rw [Finset.card_erase_of_mem (Finset.empty_mem_powerset _), Finset.card_powerset,
          List.toFinset_card_of_nodup bound.nodup_toList, Std.ExtTreeSet.length_toList]

/-! ### Rounds of the exploration -/

/-- The states by number with the sets that they stand for. -/
def Dfa.numbered (dfa : Dfa) : List (StateId × StateSet) :=
  dfa.sets.toList.zipIdx.map fun (states, index) => (UInt32.ofNat index, states)

theorem Dfa.numbered_addState (dfa : Dfa) (added : StateSet) :
    (dfa.addState added).2.numbered = dfa.numbered ++ [(dfa.numStates, added)] := by
  simp [numbered, addState, numStates, List.zipIdx_append]

theorem Dfa.map_fst_numbered (dfa : Dfa) :
    dfa.numbered.map (·.1) = (List.range dfa.sets.size).map UInt32.ofNat := by
  have indices := List.zipIdx_map_snd 0 dfa.sets.toList
  rw [Array.length_toList, ← List.range_eq_range'] at indices
  rw [← indices, numbered, List.map_map, List.map_map]
  rfl

theorem Dfa.nodup_map_fst_numbered {dfa : Dfa} (room : dfa.sets.size ≤ UInt32.size) :
    (dfa.numbered.map (·.1)).Nodup := by
  rw [map_fst_numbered]
  apply List.Nodup.map_on _ List.nodup_range
  intro left inLeft right inRight same
  rw [List.mem_range] at inLeft inRight
  have less : left < UInt32.size := Nat.lt_of_lt_of_le inLeft room
  have less' : right < UInt32.size := Nat.lt_of_lt_of_le inRight room
  rw [← UInt32.toNat_ofNat_of_lt' less, same, UInt32.toNat_ofNat_of_lt' less']

theorem Dfa.map_snd_numbered (dfa : Dfa) : dfa.numbered.map (·.2) = dfa.sets.toList := by
  have sets := List.zipIdx_map_fst 0 dfa.sets.toList
  rw [numbered, List.map_map]
  exact sets

namespace Exploration

/-- A round of the exploration takes up the first waiting state and follows all
    characters of the alphabet from there. -/
def expandRound (nfa : Nfa) : Round Exploration (StateId × StateSet)
  | ⟨_, []⟩ => none
  | ⟨dfa, (source, active) :: rest⟩ => some ((source, active), expand nfa source active ⟨dfa, rest⟩)

/-- The exploration goes through rounds until no state waits. -/
theorem terminates_run (nfa : Nfa) (e : Exploration) :
    ∃ taken, Terminates (expandRound nfa) e taken ⟨run nfa e, []⟩ := by
  fun_induction run nfa e with
  | case1 dfa => exact ⟨[], .refl rfl⟩
  | case2 dfa source active rest ih =>
    obtain ⟨taken, halts⟩ := ih
    exact ⟨(source, active) :: taken, halts.step rfl⟩

/-- What holds in every round of the exploration: the states that were taken up
    are followed by those that wait, in the order of their numbers, and their sets
    are different parts of what can be entered. -/
structure Queues (nfa : Nfa) (taken : List (StateId × StateSet)) (e : Exploration) : Prop where
  queue : taken ++ e.waiting = e.dfa.numbered
  distinct : e.dfa.sets.toList.Nodup
  inside : ∀ states ∈ e.dfa.sets.toList, states ≠ ∅ ∧ ∀ state ∈ states, state ∈ nfa.enterable

namespace Queues

variable {nfa : Nfa} {taken : List (StateId × StateSet)} {e : Exploration}

theorem initial (nfa : Nfa) (alphabet : Alphabet) : Queues nfa [] (Exploration.initial nfa alphabet) where
  queue := rfl
  distinct := List.nodup_singleton _
  inside := by
    intro states member
    rw [List.mem_singleton.mp member]
    exact ⟨nfa.initial_ne_empty, nfa.initial_enterable⟩

/-- A new set gets the next number and waits behind all others. -/
theorem addState (queues : Queues nfa taken e) {added : StateSet} (unknown : e.dfa.stateOf? added = none)
    (nonempty : added ≠ ∅) (within : ∀ state ∈ added, state ∈ nfa.enterable) :
    Queues nfa taken { dfa := (e.dfa.addState added).2, waiting := e.waiting ++ [(e.dfa.numStates, added)] } where
  queue := by
    rw [Dfa.numbered_addState, ← queues.queue, List.append_assoc]
  distinct := by
    have fresh : added ∉ e.dfa.sets.toList := by
      rw [Dfa.stateOf?, Option.map_eq_none_iff, Array.idxOf?_eq_none_iff] at unknown
      exact fun member => unknown (Array.mem_toList_iff.mp member)
    simp only [Dfa.addState, Array.toList_push]
    exact List.nodup_append.mpr ⟨queues.distinct, List.nodup_singleton _, by grind⟩
  inside := by
    intro states member
    simp only [Dfa.addState, Array.toList_push, List.mem_append, List.mem_singleton] at member
    rcases member with old | rfl
    · exact queues.inside states old
    · exact ⟨nonempty, within⟩

theorem addTransition (queues : Queues nfa taken e) (source : StateId) (char : Char) (target : StateId) :
    Queues nfa taken { e with dfa := e.dfa.addTransition source char target } :=
  ⟨queues.queue, queues.distinct, queues.inside⟩

theorem after_follow (queues : Queues nfa taken e) (source : StateId) (active : StateSet) (char : Char) :
    Queues nfa taken (follow nfa source active e char) := by
  obtain ⟨_, same⟩ | ⟨nonempty, ⟨target, _, eq⟩ | ⟨unknown, eq⟩⟩ := follow_cases nfa source active e char
  · rw [same]
    exact queues
  · rw [eq]
    exact queues.addTransition source char target
  · rw [eq]
    exact (queues.addState unknown nonempty (nfa.advance_enterable active char)).addTransition source char _

theorem after_expand (queues : Queues nfa taken e) (source : StateId) (active : StateSet) :
    Queues nfa taken (expand nfa source active e) := by
  rw [expand]
  generalize e.dfa.alphabet.toList = chars
  induction chars generalizing e with
  | nil => exact queues
  | cons char rest ih => exact ih (queues.after_follow source active char)

theorem after_round {before after : Exploration} {item : StateId × StateSet}
    (round : expandRound nfa before = some (item, after)) (queues : Queues nfa taken before) :
    Queues nfa (taken ++ [item]) after := by
  obtain ⟨dfa, waiting⟩ := before
  cases waiting with
  | nil => cases round
  | cons first rest =>
    cases round
    have taken_up : Queues nfa (taken ++ [first]) ⟨dfa, rest⟩ := by
      refine ⟨?_, queues.distinct, queues.inside⟩
      rw [List.append_assoc]
      exact queues.queue
    exact taken_up.after_expand first.1 first.2

theorem taken_eq {dfa : Dfa} (queues : Queues nfa taken ⟨dfa, []⟩) : taken = dfa.numbered := by
  rw [← queues.queue, List.append_nil]

end Queues

/-- The whole exploration is a queue of the states that it takes up. -/
theorem queues_run (nfa : Nfa) (alphabet : Alphabet) :
    ∃ taken, Terminates (expandRound nfa) (initial nfa alphabet) taken ⟨run nfa (initial nfa alphabet), []⟩ ∧
      Queues nfa taken ⟨run nfa (initial nfa alphabet), []⟩ := by
  obtain ⟨taken, halts⟩ := terminates_run nfa (initial nfa alphabet)
  exact ⟨taken, halts, halts.rounds.invariant (fun _ _ _ _ => Queues.after_round) (Queues.initial nfa alphabet)⟩

end Exploration

theorem Dfa.nodup_sets_toDfa (nfa : Nfa) (alphabet : Alphabet) : (nfa.toDfa alphabet).sets.toList.Nodup := by
  obtain ⟨_, _, queues⟩ := Exploration.queues_run nfa alphabet
  exact queues.distinct

/-- The exploration of any automaton over any alphabet ends, and takes up each set
    that it finds once. As long as the numbers do not run out, it so takes up the
    states of the deterministic automaton in the order of their numbers, in one
    round each. There are at most as many as there are sets, but the empty one, of
    states that can be entered. -/
theorem toDfa_takes_each_once (nfa : Nfa) (alphabet : Alphabet) :
    ∃ taken last, Terminates (Exploration.expandRound nfa) (Exploration.initial nfa alphabet) taken last ∧
      nfa.toDfa alphabet = last.dfa.markFinals nfa.accept ∧
      taken.map (·.2) = (nfa.toDfa alphabet).sets.toList ∧ (taken.map (·.2)).Nodup ∧
      ((nfa.toDfa alphabet).sets.size < UInt32.size →
        taken.map (·.1) = (List.range (nfa.toDfa alphabet).numStates.toNat).map UInt32.ofNat ∧
        (taken.map (·.1)).Nodup ∧
        taken.length = (nfa.toDfa alphabet).numStates.toNat ∧
        (nfa.toDfa alphabet).numStates.toNat ≤ 2 ^ nfa.enterable.size - 1) := by
  obtain ⟨taken, halts, queues⟩ := Exploration.queues_run nfa alphabet
  have numbered : taken = (nfa.toDfa alphabet).numbered := queues.taken_eq
  have sets : taken.map (·.2) = (nfa.toDfa alphabet).sets.toList := by
    rw [numbered, Dfa.map_snd_numbered]
  refine ⟨taken, _, halts, rfl, sets, ?_, fun few => ?_⟩
  · rw [sets]
    exact queues.distinct
  · have count := Dfa.toNat_numStates few
    refine ⟨?_, ?_, ?_, ?_⟩
    · rw [count, numbered, Dfa.map_fst_numbered]
    · rw [numbered]
      exact Dfa.nodup_map_fst_numbered (Nat.le_of_lt few)
    · rw [count, ← Array.length_toList, ← sets, List.length_map]
    · rw [count, ← Array.length_toList]
      exact StateSet.length_le_two_pow queues.distinct queues.inside

theorem toDfa_takes_each_once_circle :
    (Nfa.circle.toDfa (Alphabet.ofList ['a', 'c'])).sets.size < UInt32.size ∧
    ∃ taken last, Terminates (Exploration.expandRound Nfa.circle)
        (Exploration.initial Nfa.circle (Alphabet.ofList ['a', 'c'])) taken last ∧
      taken.map (·.1) = [0, 1] ∧ taken.length ≤ 2 ^ 3 - 1 := by
  have few : (Nfa.circle.toDfa (Alphabet.ofList ['a', 'c'])).sets.size < UInt32.size := by cbv
  obtain ⟨taken, last, halts, _, _, _, counted⟩ := toDfa_takes_each_once Nfa.circle (Alphabet.ofList ['a', 'c'])
  obtain ⟨numbers, _, rounds, bound⟩ := counted few
  have count : (Nfa.circle.toDfa (Alphabet.ofList ['a', 'c'])).numStates = 2 := by cbv
  have enterable : Nfa.circle.enterable.size = 3 := by cbv
  refine ⟨few, taken, last, halts, ?_, ?_⟩
  · rw [numbers, count]
    rfl
  · rw [rounds, ← enterable]
    exact bound

end RegexCompiler
