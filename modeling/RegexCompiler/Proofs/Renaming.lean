import Mathlib.Logic.Function.Basic
import RegexCompiler.Proofs.Layout
import RegexCompiler.Proofs.Simulation

namespace RegexCompiler

/-! ## Renamed parts -/

/-- The label with another character; a move that reads nothing stays one. -/
def Symbol.rename (char : Char → Char) : Symbol → Symbol
  | .literal c => .literal (char c)
  | .epsilon => .epsilon

/-- The transition between other states and with another character. -/
def Transition.rename (state : StateId → StateId) (char : Char → Char) (edge : Transition) : Transition :=
  ⟨state edge.source, edge.symbol.rename char, state edge.target⟩

/-- The table with all its transitions renamed. -/
def TransitionTable.rename (state : StateId → StateId) (char : Char → Char) (table : TransitionTable) :
    TransitionTable :=
  .ofList (table.moves.map (·.rename state char))

/-- The automaton with its states and characters renamed, as if any number of states
    had been handed out. -/
def Nfa.rename (state : StateId → StateId) (char : Char → Char) (numStates : StateId) (nfa : Nfa) : Nfa where
  numStates := numStates
  start := state nfa.start
  accept := state nfa.accept
  transitions := nfa.transitions.rename state char

/-- The set of the renamed states. -/
def StateSet.image (state : StateId → StateId) (states : StateSet) : StateSet :=
  .ofList (states.toList.map state)

theorem Symbol.rename_injective {char : Char → Char} (injective : Function.Injective char) :
    Function.Injective (Symbol.rename char) := by
  intro left right same
  cases left with
  | literal c =>
    cases right with
    | literal d => rw [injective (Symbol.literal.inj same)]
    | epsilon => cases same
  | epsilon =>
    cases right with
    | literal d => cases same
    | epsilon => rfl

theorem TransitionTable.mem_rename {state : StateId → StateId} {char : Char → Char} {table : TransitionTable}
    {edge : Transition} : edge ∈ table.rename state char ↔ ∃ edge' ∈ table, edge'.rename state char = edge := by
  simp only [rename, mem_ofList, List.mem_map, mem_moves]

@[simp] theorem Symbol.rename_id (symbol : Symbol) : symbol.rename id = symbol := by
  cases symbol <;> rfl

@[simp] theorem Transition.rename_id (edge : Transition) : edge.rename id id = edge := by
  rw [rename, Symbol.rename_id]
  rfl

namespace TransitionTable

variable (state : StateId → StateId) (char : Char → Char)

@[simp] theorem rename_id (table : TransitionTable) : table.rename id id = table := by
  refine ext_transitions fun edge => ?_
  simp [mem_rename]

@[simp] theorem rename_empty : (∅ : TransitionTable).rename state char = ∅ := by
  refine ext_transitions fun edge => ?_
  simp [mem_rename]

theorem rename_insert (table : TransitionTable) (added : Transition) :
    (table.insert added).rename state char = (table.rename state char).insert (added.rename state char) := by
  refine ext_transitions fun edge => ?_
  simp only [mem_rename, mem_insert, or_and_right, exists_or, exists_eq_left]
  exact or_congr_left eq_comm

end TransitionTable

namespace StateSet

variable {state : StateId → StateId}

@[simp] theorem mem_image {states : StateSet} {target : StateId} :
    target ∈ states.image state ↔ ∃ source ∈ states, state source = target := by
  simp [image]

theorem mem_image_of_injective (injective : Function.Injective state) {states : StateSet} {member : StateId} :
    state member ∈ states.image state ↔ member ∈ states := by
  rw [mem_image]
  exact ⟨fun ⟨_, known, same⟩ => injective same ▸ known, fun known => ⟨member, known, rfl⟩⟩

theorem image_injective (injective : Function.Injective state) : Function.Injective (image state) := by
  intro left right same
  refine Std.ExtTreeSet.ext_mem fun member => ?_
  rw [← mem_image_of_injective injective, same, mem_image_of_injective injective]

@[simp] theorem image_empty : (∅ : StateSet).image state = ∅ :=
  rfl

theorem image_singleton (member : StateId) : ({member} : StateSet).image state = {state member} := by
  refine Std.ExtTreeSet.ext_mem fun target => ?_
  simp only [mem_image, mem_singleton_iff, exists_eq_left]
  exact eq_comm

@[simp] theorem image_id (states : StateSet) : states.image id = states := by
  refine Std.ExtTreeSet.ext_mem fun target => ?_
  simp

end StateSet

/-! ## Renamed automata -/

namespace Nfa

/-- The second automaton has the start, the accepting state and the transitions of the
    first one under other names. -/
structure Renames (state : StateId → StateId) (char : Char → Char) (nfa renamed : Nfa) : Prop where
  start_eq : renamed.start = state nfa.start
  accept_eq : renamed.accept = state nfa.accept
  mem_iff : ∀ edge, edge ∈ renamed.transitions ↔ ∃ edge' ∈ nfa.transitions, edge'.rename state char = edge

theorem renames_rename (state : StateId → StateId) (char : Char → Char) (numStates : StateId) (nfa : Nfa) :
    nfa.Renames state char (nfa.rename state char numStates) where
  start_eq := rfl
  accept_eq := rfl
  mem_iff _ := TransitionTable.mem_rename

namespace Renames

variable {state : StateId → StateId} {char : Char → Char} {nfa renamed : Nfa} (renames : nfa.Renames state char renamed)
  (states : Function.Injective state) (chars : Function.Injective char)
include renames

theorem mem_rename {edge : Transition} (member : edge ∈ nfa.transitions) :
    edge.rename state char ∈ renamed.transitions :=
  (renames.mem_iff _).mpr ⟨edge, member, rfl⟩

include states

/-- A transition from a renamed state is the renamed transition from that state. -/
theorem exists_target {source target : StateId} {symbol : Symbol}
    (edge : ⟨state source, symbol, target⟩ ∈ renamed.transitions) :
    ∃ symbol' target', symbol'.rename char = symbol ∧ state target' = target ∧
      ⟨source, symbol', target'⟩ ∈ nfa.transitions := by
  obtain ⟨⟨source', symbol', target'⟩, member, same⟩ := (renames.mem_iff _).mp edge
  obtain ⟨sameSource, sameSymbol, sameTarget⟩ := Transition.mk.inj same
  exact ⟨symbol', target', sameSymbol, sameTarget, states sameSource ▸ member⟩

theorem reaches_iff {source target : StateId} :
    Reaches (renamed.transitions.targets · .epsilon) (state source) target ↔
      ∃ target', Reaches (nfa.transitions.targets · .epsilon) source target' ∧ state target' = target := by
  constructor
  · intro chain
    induction chain with
    | refl => exact ⟨source, .refl, rfl⟩
    | step _ edge ih =>
      obtain ⟨middle, chain', rfl⟩ := ih
      obtain ⟨symbol, target', silent, rfl, edge'⟩ := renames.exists_target states edge
      cases symbol with
      | literal c => cases silent
      | epsilon => exact ⟨target', .step chain' edge', rfl⟩
  · rintro ⟨target', chain, rfl⟩
    induction chain with
    | refl => exact .refl
    | @step middle target _ edge ih =>
      have silent : ⟨middle, .epsilon, target⟩ ∈ nfa.transitions := edge
      exact .step ih (renames.mem_rename silent)

theorem closure_image (active : StateSet) :
    renamed.closure (active.image state) = (nfa.closure active).image state := by
  refine Std.ExtTreeSet.ext_mem fun target => ?_
  simp only [mem_closure, StateSet.mem_image]
  constructor
  · rintro ⟨_, ⟨source, member, rfl⟩, chain⟩
    obtain ⟨target', chain', rfl⟩ := (renames.reaches_iff states).mp chain
    exact ⟨target', ⟨source, member, chain'⟩, rfl⟩
  · rintro ⟨target', ⟨source, member, chain⟩, rfl⟩
    exact ⟨_, ⟨source, member, rfl⟩, (renames.reaches_iff states).mpr ⟨target', chain, rfl⟩⟩

theorem initial_image : renamed.initial = nfa.initial.image state := by
  rw [initial, initial, renames.start_eq, ← StateSet.image_singleton, renames.closure_image states]

theorem mem_accept_iff {active : StateSet} : renamed.accept ∈ active.image state ↔ nfa.accept ∈ active := by
  rw [renames.accept_eq, StateSet.mem_image_of_injective states]

include chars

theorem move_image (active : StateSet) (c : Char) :
    renamed.move (active.image state) (char c) = (nfa.move active c).image state := by
  refine Std.ExtTreeSet.ext_mem fun target => ?_
  simp only [mem_move, StateSet.mem_image]
  constructor
  · rintro ⟨_, ⟨source, member, rfl⟩, edge⟩
    obtain ⟨symbol, target', reads, rfl, edge'⟩ := renames.exists_target states edge
    obtain rfl : symbol = .literal c := Symbol.rename_injective chars reads
    exact ⟨target', ⟨source, member, edge'⟩, rfl⟩
  · rintro ⟨target', ⟨source, member, edge⟩, rfl⟩
    exact ⟨_, ⟨source, member, rfl⟩, renames.mem_rename edge⟩

theorem advance_image (active : StateSet) (c : Char) :
    renamed.advance (active.image state) (char c) = (nfa.advance active c).image state := by
  rw [advance, advance, renames.move_image states chars, renames.closure_image states]

theorem simulate_map (word : List Char) : renamed.simulate (word.map char) = (nfa.simulate word).image state := by
  have along (active : StateSet) :
      (word.map char).foldl renamed.advance (active.image state) = (word.foldl nfa.advance active).image state := by
    induction word generalizing active with
    | nil => rfl
    | cons c rest ih => rw [List.map_cons, List.foldl_cons, List.foldl_cons, renames.advance_image states chars, ih]
  rw [simulate, simulate, renames.initial_image states, along]

theorem accepts_map (word : List Char) : renamed.accepts (word.map char) = nfa.accepts word := by
  rw [Bool.eq_iff_iff, accepts_iff, accepts_iff, renames.simulate_map states chars, renames.mem_accept_iff states]

end Renames

end Nfa

end RegexCompiler
