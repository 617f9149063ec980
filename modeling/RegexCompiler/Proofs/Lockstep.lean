import Mathlib.Data.List.Sort
import RegexCompiler.Proofs.Findings
import RegexCompiler.Proofs.Literals
import RegexCompiler.Proofs.Renaming

/-!
Two explorations do the same, step by step, if one automaton is the other one with other names for its
states and characters (`Exploration.Mirrors`). Characters that no transition reads change nothing.
-/

namespace RegexCompiler

theorem Alphabet.ascending_toList (alphabet : Alphabet) : alphabet.toList.Pairwise (· < ·) :=
  alphabet.ordered_toList.imp compare_lt_iff_lt.mp

theorem idxOf?_map_of_injective {α β : Type} [BEq α] [LawfulBEq α] [BEq β] [LawfulBEq β] {f : α → β}
    (injective : Function.Injective f) (items : Array α) (item : α) :
    (items.map f).idxOf? (f item) = items.idxOf? item := by
  have same : ((· == f item) ∘ f) = (· == item) := by
    funext other
    rw [Function.comp_apply, Bool.eq_iff_iff, beq_iff_eq, beq_iff_eq, injective.eq_iff]
  rw [← Array.idxOf?_toList, ← Array.idxOf?_toList, Array.toList_map, List.idxOf?, List.findIdx?_map, same]
  rfl

@[simp] theorem StateSet.isEmpty_image (state : StateId → StateId) (states : StateSet) :
    (states.image state).isEmpty = states.isEmpty := by
  rw [Bool.eq_iff_iff, Std.ExtTreeSet.isEmpty_iff, Std.ExtTreeSet.isEmpty_iff]
  simp [Std.ExtTreeSet.eq_empty_iff_forall_not_mem]

theorem Nfa.Renames.hasLabel_iff {state : StateId → StateId} {char : Char → Char} {nfa renamed : Nfa}
    (renames : nfa.Renames state char renamed) {c : Char} :
    renamed.HasLabel c ↔ ∃ c', nfa.HasLabel c' ∧ char c' = c := by
  constructor
  · rintro ⟨source, target, edge⟩
    obtain ⟨⟨source', symbol, target'⟩, member, same⟩ := (renames.mem_iff _).mp edge
    cases symbol with
    | epsilon => cases same
    | literal c' => exact ⟨c', ⟨source', target', member⟩, Symbol.literal.inj (Transition.mk.inj same).2.1⟩
  · rintro ⟨c', ⟨source, target, edge⟩, rfl⟩
    exact ⟨_, _, renames.mem_rename edge⟩

/-! ## Mirrored automata -/

/-- The second automaton has the states of the first one, which stand for renamed
    sets, and its transitions, on renamed characters. -/
structure Dfa.Mirrors (state : StateId → StateId) (char : Char → Char) (dfa mirrored : Dfa) : Prop where
  sets_eq : mirrored.sets = dfa.sets.map (·.image state)
  start_eq : mirrored.start = dfa.start
  finals_eq : mirrored.finals = dfa.finals
  transition?_iff : ∀ source c target, mirrored.transition? source c = some target ↔
    ∃ c', char c' = c ∧ dfa.transition? source c' = some target

namespace Dfa.Mirrors

variable {state : StateId → StateId} {char : Char → Char} {dfa mirrored : Dfa}

theorem numStates_eq (mirrors : dfa.Mirrors state char mirrored) : mirrored.numStates = dfa.numStates := by
  rw [numStates, numStates, mirrors.sets_eq, Array.size_map]

theorem stateOf?_image (mirrors : dfa.Mirrors state char mirrored) (states : Function.Injective state)
    (active : StateSet) : mirrored.stateOf? (active.image state) = dfa.stateOf? active := by
  rw [stateOf?, stateOf?, mirrors.sets_eq]
  exact congrArg _ (idxOf?_map_of_injective (StateSet.image_injective states) dfa.sets active)

theorem transitions_eq (mirrors : dfa.Mirrors state id mirrored) : mirrored.transitions = dfa.transitions := by
  refine Std.ExtTreeMap.ext_getElem? fun (source, c) => Option.ext fun target => ?_
  change mirrored.transition? source c = some target ↔ dfa.transition? source c = some target
  simp [mirrors.transition?_iff]

theorem addState (mirrors : dfa.Mirrors state char mirrored) (added : StateSet) :
    (dfa.addState added).2.Mirrors state char (mirrored.addState (added.image state)).2 where
  sets_eq := by simp [Dfa.addState, mirrors.sets_eq]
  start_eq := mirrors.start_eq
  finals_eq := mirrors.finals_eq
  transition?_iff := mirrors.transition?_iff

theorem addTransition (mirrors : dfa.Mirrors state char mirrored) (chars : Function.Injective char) (source : StateId)
    (c : Char) (target : StateId) :
    (dfa.addTransition source c target).Mirrors state char (mirrored.addTransition source (char c) target) where
  sets_eq := mirrors.sets_eq
  start_eq := mirrors.start_eq
  finals_eq := mirrors.finals_eq
  transition?_iff := by
    intro source' label target'
    simp only [transition?_addTransition]
    by_cases replaced : source = source' ∧ char c = label
    · obtain ⟨rfl, rfl⟩ := replaced
      simp [chars.eq_iff]
    -- Nothing that is renamed to this label was replaced.
    · have kept (c' : Char) (renamed : char c' = label) : ¬ (source = source' ∧ c = c') := by
        rintro ⟨rfl, rfl⟩
        exact replaced ⟨rfl, renamed⟩
      rw [if_neg replaced, mirrors.transition?_iff]
      exact exists_congr fun c' => and_congr_right fun renamed => by rw [if_neg (kept c' renamed)]

theorem markFinals (mirrors : dfa.Mirrors state char mirrored) (states : Function.Injective state) (accept : StateId) :
    (dfa.markFinals accept).Mirrors state char (mirrored.markFinals (state accept)) where
  sets_eq := mirrors.sets_eq
  start_eq := mirrors.start_eq
  finals_eq := by
    have same (item : StateSet × Nat) : (item.1.image state).contains (state accept) = item.1.contains accept := by
      rw [Bool.eq_iff_iff, Std.ExtTreeSet.contains_iff_mem, Std.ExtTreeSet.contains_iff_mem,
        StateSet.mem_image_of_injective states]
    simp only [Dfa.markFinals, mirrors.sets_eq, Array.toList_map, List.zipIdx_map, List.filter_map, List.map_map]
    simp [Function.comp_def, same]
  transition?_iff := mirrors.transition?_iff

theorem transition?_eq (mirrors : dfa.Mirrors state char mirrored) (chars : Function.Injective char) (source : StateId)
    (c : Char) : mirrored.transition? source (char c) = dfa.transition? source c := by
  refine Option.ext fun target => ?_
  rw [mirrors.transition?_iff]
  constructor
  · rintro ⟨c', same, leads⟩
    rwa [chars same] at leads
  · intro leads
    exact ⟨c, rfl, leads⟩

theorem accepts_map (mirrors : dfa.Mirrors state char mirrored) (chars : Function.Injective char) (word : List Char) :
    mirrored.accepts (word.map char) = dfa.accepts word := by
  have along (source : StateId) : mirrored.runFrom source (word.map char) = dfa.runFrom source word := by
    induction word generalizing source with
    | nil => rfl
    | cons c rest ih => simp only [List.map_cons, Dfa.runFrom, mirrors.transition?_eq chars, ih]
  have final : mirrored.isFinal = dfa.isFinal := by
    funext source
    rw [Dfa.isFinal, Dfa.isFinal, mirrors.finals_eq]
  rw [Dfa.accepts, Dfa.accepts, Dfa.run, Dfa.run, mirrors.start_eq, final, funext along]

end Dfa.Mirrors

/-! ## Mirrored explorations -/

theorem Nfa.advance_of_not_hasLabel {nfa : Nfa} {char : Char} (unread : ¬ nfa.HasLabel char) (active : StateSet) :
    nfa.advance active char = ∅ := by
  have stuck : nfa.move active char = ∅ := by
    refine Std.ExtTreeSet.eq_empty_iff_forall_not_mem.mpr fun target member => ?_
    obtain ⟨source, _, edge⟩ := mem_move.mp member
    exact unread ⟨source, target, edge⟩
  rw [advance, stuck, closure_empty]

namespace Exploration

/-- Both explorations know the same states and have the same ones waiting; those of
    the second one stand for renamed sets. -/
structure Mirrors (state : StateId → StateId) (char : Char → Char) (alphabet alphabet' : Alphabet)
    (e mirrored : Exploration) : Prop where
  alphabet_eq : e.dfa.alphabet = alphabet
  alphabet_eq' : mirrored.dfa.alphabet = alphabet'
  dfa : e.dfa.Mirrors state char mirrored.dfa
  waiting_eq : mirrored.waiting = e.waiting.map fun (source, active) => (source, active.image state)

namespace Mirrors

variable {state : StateId → StateId} {char : Char → Char} {alphabet alphabet' : Alphabet} {nfa renamed : Nfa}
  (renames : nfa.Renames state char renamed) (states : Function.Injective state) (chars : Function.Injective char)
include renames states

theorem initial : Mirrors state char alphabet alphabet' (initial nfa alphabet) (Exploration.initial renamed alphabet') where
  alphabet_eq := rfl
  alphabet_eq' := rfl
  dfa := by
    have none (alphabet : Alphabet) (nfa : Nfa) (source : StateId) (c : Char) :
        (Exploration.initial nfa alphabet).dfa.transition? source c = none :=
      Std.ExtTreeMap.getElem?_empty
    constructor
    · simp [Exploration.initial, Dfa.addState, Dfa.setStart, renames.initial_image states]
    · rfl
    · rfl
    · simp [none]
  waiting_eq := by simp [Exploration.initial, Dfa.addState, Dfa.numStates, renames.initial_image states]

include chars

variable {e mirrored : Exploration} (mirrors : Mirrors state char alphabet alphabet' e mirrored)
include mirrors

/-- Both explorations find the same state on a character, or both a new one. -/
theorem after_follow (source : StateId) (active : StateSet) (c : Char) :
    Mirrors state char alphabet alphabet' (follow nfa source active e c)
      (follow renamed source (active.image state) mirrored (char c)) := by
  simp only [follow, renames.advance_image states chars, StateSet.isEmpty_image, mirrors.dfa.stateOf?_image states]
  by_cases gone : (nfa.advance active c).isEmpty = true
  · rw [if_pos gone, if_pos gone]
    exact mirrors
  · rw [if_neg gone, if_neg gone]
    cases e.dfa.stateOf? (nfa.advance active c) with
    | some target =>
      exact ⟨mirrors.alphabet_eq, mirrors.alphabet_eq', mirrors.dfa.addTransition chars source c target,
        mirrors.waiting_eq⟩
    | none =>
      have number := mirrors.dfa.numStates_eq
      refine ⟨mirrors.alphabet_eq, mirrors.alphabet_eq', ?_, ?_⟩
      · simp only [Dfa.addState, number]
        exact (mirrors.dfa.addState _).addTransition chars source c _
      · simp [Dfa.addState, number, mirrors.waiting_eq]

theorem after_foldl (source : StateId) (active : StateSet) (followed : List Char) :
    Mirrors state char alphabet alphabet' (followed.foldl (follow nfa source active) e)
      ((followed.map char).foldl (follow renamed source (active.image state)) mirrored) := by
  induction followed generalizing e mirrored with
  | nil => exact mirrors
  | cons c rest ih => exact ih (mirrors.after_follow renames states chars source active c)

variable {followed : List Char}
  (follows : ∀ source active e, alphabet.toList.foldl (follow nfa source active) e =
    followed.foldl (follow nfa source active) e)
  (follows' : ∀ source active e, alphabet'.toList.foldl (follow renamed source active) e =
    (followed.map char).foldl (follow renamed source active) e)
include follows follows'

theorem after_expand (source : StateId) (active : StateSet) :
    Mirrors state char alphabet alphabet' (expand nfa source active e)
      (expand renamed source (active.image state) mirrored) := by
  rw [expand, expand, mirrors.alphabet_eq, mirrors.alphabet_eq', follows, follows']
  exact mirrors.after_foldl renames states chars source active followed

/-- The explorations take up their states together until none waits. -/
theorem run : (run nfa e).Mirrors state char (Exploration.run renamed mirrored) := by
  fun_induction Exploration.run nfa e generalizing mirrored with
  | case1 dfa =>
    obtain ⟨dfa', waiting⟩ := mirrored
    obtain rfl : waiting = [] := mirrors.waiting_eq
    rw [Exploration.run]
    exact mirrors.dfa
  | case2 dfa source active rest ih =>
    obtain ⟨dfa', waiting⟩ := mirrored
    obtain rfl : waiting = (source, active.image state) :: rest.map _ := mirrors.waiting_eq
    have taken : Mirrors state char alphabet alphabet' ⟨dfa, rest⟩ ⟨dfa', rest.map _⟩ :=
      ⟨mirrors.alphabet_eq, mirrors.alphabet_eq', mirrors.dfa, rfl⟩
    rw [Exploration.run]
    exact ih (taken.after_expand renames states chars follows follows' source active)

end Mirrors

end Exploration

/-! ## Deterministic automata -/

namespace Nfa

/-- Automata that are the same up to names are so when they are made deterministic, if
    the same characters are followed in the same order. -/
theorem Renames.toDfa {state : StateId → StateId} {char : Char → Char} {nfa renamed : Nfa}
    (renames : nfa.Renames state char renamed) (states : Function.Injective state) (chars : Function.Injective char)
    {alphabet alphabet' : Alphabet} (reads reads' : Char → Bool)
    (unread : ∀ c ∈ alphabet, reads c = false → ¬ nfa.HasLabel c)
    (unread' : ∀ c ∈ alphabet', reads' c = false → ¬ renamed.HasLabel c)
    (same : alphabet'.toList.filter reads' = (alphabet.toList.filter reads).map char) :
    (nfa.toDfa alphabet).Mirrors state char (renamed.toDfa alphabet') := by
  have follows (source : StateId) (active : StateSet) := Exploration.foldl_follow_filter (fun c listed never =>
    advance_of_not_hasLabel (unread c (Std.ExtTreeSet.mem_toList.mp listed) never) active) source
  have follows' (source : StateId) (active : StateSet) := Exploration.foldl_follow_filter (fun c listed never =>
    advance_of_not_hasLabel (unread' c (Std.ExtTreeSet.mem_toList.mp listed) never) active) source
  rw [same] at follows'
  have explored := (Exploration.Mirrors.initial renames states).run renames states chars follows follows'
  rw [Nfa.toDfa, Nfa.toDfa, renames.accept_eq]
  exact explored.markFinals states nfa.accept

/-! ### Characters in another order -/

namespace Renames

variable {state : StateId → StateId} {char : Char → Char} {nfa renamed : Nfa} (renames : nfa.Renames state char renamed)
  (states : Function.Injective state) (chars : Function.Injective char) {alphabet alphabet' : Alphabet}
  (listed : ∀ c, c ∈ alphabet' ↔ ∃ c' ∈ alphabet, char c' = c)
include renames states chars listed

theorem visits_iff {active : StateSet} :
    renamed.Visits alphabet' active ↔ ∃ active', nfa.Visits alphabet active' ∧ active'.image state = active := by
  constructor
  · rintro ⟨word, inside, rfl⟩
    -- Every character comes from the first alphabet, and so does the whole word.
    have spelled : ∃ word' : List Char, (∀ c ∈ word', c ∈ alphabet) ∧ word'.map char = word := by
      induction word with
      | nil => exact ⟨[], by simp, rfl⟩
      | cons c rest ih =>
        obtain ⟨rest', inside', rfl⟩ := ih fun c member => inside c (.tail _ member)
        obtain ⟨c', member, rfl⟩ := (listed c).mp (inside c (.head _))
        exact ⟨c' :: rest', List.forall_mem_cons.mpr ⟨member, inside'⟩, rfl⟩
    obtain ⟨word', inside', rfl⟩ := spelled
    exact ⟨_, ⟨word', inside', rfl⟩, (renames.simulate_map states chars word').symm⟩
  · rintro ⟨_, ⟨word, inside, rfl⟩, rfl⟩
    refine ⟨word.map char, fun c member => ?_, renames.simulate_map states chars word⟩
    obtain ⟨c', known, rfl⟩ := List.mem_map.mp member
    exact (listed _).mpr ⟨c', inside c' known, rfl⟩

/-- The renamed sets are found, if in another order. -/
theorem sets_toDfa_perm :
    (renamed.toDfa alphabet').sets.toList.Perm ((nfa.toDfa alphabet).sets.toList.map (·.image state)) := by
  have apart := (Dfa.nodup_sets_toDfa nfa alphabet).map (StateSet.image_injective states)
  refine (List.perm_ext_iff_of_nodup (Dfa.nodup_sets_toDfa renamed alphabet') apart).mpr fun active => ?_
  simp only [List.mem_map, Array.mem_toList_iff, Dfa.mem_sets_toDfa_iff, renames.visits_iff states chars listed]
  constructor
  · rintro ⟨nonempty, active', visits, rfl⟩
    refine ⟨active', ⟨?_, visits⟩, rfl⟩
    rintro rfl
    exact nonempty StateSet.image_empty
  · rintro ⟨active', ⟨nonempty, visits⟩, rfl⟩
    exact ⟨(StateSet.image_injective states).ne nonempty, active', visits, rfl⟩

theorem size_sets_toDfa : (renamed.toDfa alphabet').sets.size = (nfa.toDfa alphabet).sets.size := by
  rw [← Array.length_toList, (renames.sets_toDfa_perm states chars listed).length_eq, List.length_map, Array.length_toList]

/-- As long as the numbers of states do not run out, the order plays no part in what
    is accepted. -/
theorem accepts_toDfa_map (room : (nfa.toDfa alphabet).sets.size ≤ UInt32.size) (word : List Char) :
    (renamed.toDfa alphabet').accepts (word.map char) = (nfa.toDfa alphabet).accepts word := by
  have room' : (renamed.toDfa alphabet').sets.size ≤ UInt32.size := by
    rwa [renames.size_sets_toDfa states chars listed]
  have inside : (∀ c ∈ word.map char, c ∈ alphabet') ↔ ∀ c ∈ word, c ∈ alphabet := by
    simp [listed, chars.eq_iff]
  rw [Bool.eq_iff_iff, accepts_toDfa_iff room', accepts_toDfa_iff room, renames.accepts_map states chars, inside]

end Renames

/-! ### Other numbers of states -/

/-- Other numbers for the states, however many were handed out, and characters that no
    transition reads change nothing about the deterministic automaton but what its
    states stand for, which are the renamed sets. -/
theorem toDfa_rename (nfa : Nfa) {state : StateId → StateId} (states : Function.Injective state) (numStates : StateId)
    {alphabet alphabet' : Alphabet} (same : ∀ char, nfa.HasLabel char → (char ∈ alphabet ↔ char ∈ alphabet')) :
    ((nfa.rename state id numStates).toDfa alphabet').numStates = (nfa.toDfa alphabet).numStates ∧
    ((nfa.rename state id numStates).toDfa alphabet').start = (nfa.toDfa alphabet).start ∧
    ((nfa.rename state id numStates).toDfa alphabet').finals = (nfa.toDfa alphabet).finals ∧
    ((nfa.rename state id numStates).toDfa alphabet').transitions = (nfa.toDfa alphabet).transitions ∧
    ((nfa.rename state id numStates).toDfa alphabet').sets = (nfa.toDfa alphabet).sets.map (·.image state) := by
  have renames := renames_rename state id numStates nfa
  -- A character of only one alphabet is not read, so just those of both need to be followed.
  have common : alphabet'.toList.filter alphabet.contains = (alphabet.toList.filter alphabet'.contains).map id := by
    rw [List.map_id]
    refine List.Pairwise.eq_of_mem_iff (alphabet'.ascending_toList.filter _) (alphabet.ascending_toList.filter _) ?_
    intro c
    simp [and_comm]
  have unread (c : Char) (listed : c ∈ alphabet) (absent : alphabet'.contains c = false) : ¬ nfa.HasLabel c := by
    intro label
    rw [Std.ExtTreeSet.contains_iff_mem.mpr ((same c label).mp listed)] at absent
    exact Bool.noConfusion absent
  have unread' (c : Char) (listed : c ∈ alphabet') (absent : alphabet.contains c = false) :
      ¬ (nfa.rename state id numStates).HasLabel c := by
    intro label
    obtain ⟨c, label', rfl⟩ := renames.hasLabel_iff.mp label
    rw [id_eq, Std.ExtTreeSet.contains_iff_mem.mpr ((same c label').mpr listed)] at absent
    exact Bool.noConfusion absent
  have mirrors := renames.toDfa states Function.injective_id alphabet'.contains alphabet.contains unread unread' common
  exact ⟨mirrors.numStates_eq, mirrors.start_eq, mirrors.finals_eq, mirrors.transitions_eq, mirrors.sets_eq⟩

/-- The states in reverse order, and another character that is not read. -/
theorem toDfa_rename_reversed :
    ((circle.rename (9 - ·) id 4).toDfa (.ofList ['z', 'b', 'a'])).numStates = 2 ∧
    ((circle.rename (9 - ·) id 4).toDfa (.ofList ['z', 'b', 'a'])).sets.toList.map (·.toList) = [[2, 6], [0]] ∧
    ((circle.rename (9 - ·) id 4).toDfa (.ofList ['z', 'b', 'a'])).transitions =
      (circle.toDfa (.ofList ['b', 'a', 'c'])).transitions := by
  have states : Function.Injective (9 - · : StateId → StateId) := by
    intro source target same
    grind
  have labels (char : Char) (label : circle.HasLabel char) :
      char ∈ Alphabet.ofList ['b', 'a', 'c'] ↔ char ∈ Alphabet.ofList ['z', 'b', 'a'] := by
    obtain ⟨source, target, edge⟩ := label
    have read : source = 7 ∧ char = 'b' ∧ target = 9 ∨ source = 7 ∧ char = 'a' ∧ target = 9 := by
      simpa [circle, Builder.finish, Builder.connectLiteral, Builder.connectEpsilon, Builder.mem_connect] using edge
    rcases read with ⟨_, rfl, _⟩ | ⟨_, rfl, _⟩ <;> simp
  obtain ⟨count, _, _, transitions, sets⟩ := toDfa_rename circle states 4 labels
  refine ⟨count.trans (by cbv), ?_, transitions⟩
  rw [sets]
  cbv

end Nfa

end RegexCompiler
