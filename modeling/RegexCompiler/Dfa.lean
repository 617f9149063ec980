import RegexCompiler.Alphabet
import RegexCompiler.StateSet
import RegexCompiler.Finite
import Std.Data.ExtTreeMap

/-! Deterministic automata. Nothing requires that a state was added before it is named. -/

namespace RegexCompiler

/-- A deterministic automaton; `sets` lists what its states stand for in the
    order in which they were added. -/
structure Dfa where
  alphabet : Alphabet
  sets : Array StateSet := #[]
  start : Option StateId := none
  finals : StateSet := ∅
  transitions : Std.ExtTreeMap (StateId × Char) StateId rowOrder := ∅

namespace Dfa

/-- How many states were added, which is also the number of the next one. -/
def numStates (dfa : Dfa) : StateId :=
  UInt32.ofNat dfa.sets.size

/-- Adds a state that stands for the given set. -/
def addState (dfa : Dfa) (states : StateSet) : StateId × Dfa :=
  (dfa.numStates, { dfa with sets := dfa.sets.push states })

/-- Makes a state the start state. -/
def setStart (dfa : Dfa) (state : StateId) : Dfa :=
  { dfa with start := some state }

/-- Makes a state accepting. -/
def addFinal (dfa : Dfa) (state : StateId) : Dfa :=
  { dfa with finals := dfa.finals.insert state }

/-- Adds a transition in place of any other from the same state on the same
    character. -/
def addTransition (dfa : Dfa) (source : StateId) (char : Char) (target : StateId) : Dfa :=
  { dfa with transitions := dfa.transitions.insert (source, char) target }

/-- Where a state leads to on a character. -/
def transition? (dfa : Dfa) (source : StateId) (char : Char) : Option StateId :=
  dfa.transitions[(source, char)]?

/-- What a state stands for, if it was added. -/
def states? (dfa : Dfa) (state : StateId) : Option StateSet :=
  dfa.sets[state.toNat]?

/-- The first state that stands for a set. -/
def stateOf? (dfa : Dfa) (states : StateSet) : Option StateId :=
  (dfa.sets.idxOf? states).map UInt32.ofNat

/-- Whether a state is accepting. -/
def isFinal (dfa : Dfa) (state : StateId) : Bool :=
  dfa.finals.contains state

/-- The state that a word leads to from a given one. -/
def runFrom (dfa : Dfa) (state : StateId) : List Char → Option StateId
  | [] => some state
  | char :: rest => (dfa.transition? state char).bind fun next => dfa.runFrom next rest

/-- The state that a word leads to from the start. -/
def run (dfa : Dfa) (word : List Char) : Option StateId :=
  dfa.start.bind fun start => dfa.runFrom start word

/-- Whether the automaton accepts a word. -/
def accepts (dfa : Dfa) (word : List Char) : Bool :=
  (dfa.run word).any dfa.isFinal

/-- The states that the characters of the alphabet lead to, one after another. -/
def successors (dfa : Dfa) (state : StateId) : List StateId :=
  dfa.alphabet.toList.filterMap (dfa.transition? state)

/-- Whether a waiting state, or one that characters of the alphabet lead to from
    there, is accepting. A state may wait more than once and is looked at once. -/
def leadsToFinal (dfa : Dfa) (waiting : List StateId) (visited : StateSet) : Bool :=
  match waiting with
  | [] => false
  | state :: rest =>
    if visited.contains state then dfa.leadsToFinal rest visited
    else if dfa.isFinal state then true
    else
      let visited' := visited.insert state
      dfa.leadsToFinal (rest ++ (dfa.successors state).filter (!visited'.contains ·)) visited'
termination_by (outside StateId.exists_all.choose visited.contains, waiting.length)
decreasing_by
  · exact Prod.Lex.right _ (by simp)
  · rename_i unvisited _
    refine Prod.Lex.left _ _ (outside_lt (a := state) ?_ (StateId.exists_all.choose_spec state) unvisited ?_)
    · intro s member
      rw [Std.ExtTreeSet.contains_iff_mem] at member ⊢
      exact StateSet.mem_insert_iff.mpr (.inr member)
    · rw [Std.ExtTreeSet.contains_iff_mem]
      exact StateSet.mem_insert_iff.mpr (.inl rfl)

/-- Whether no accepting state can be reached from the start by characters of
    the alphabet. -/
def isEmpty (dfa : Dfa) : Bool :=
  match dfa.start with
  | none => true
  | some start => if dfa.finals.isEmpty then true else !dfa.leadsToFinal [start] ∅

/-- The last transition that was added for a state and a character counts. -/
theorem transition?_addTransition {dfa : Dfa} {source state target : StateId} {char label : Char} :
    (dfa.addTransition source char target).transition? state label =
      if source = state ∧ char = label then some target else dfa.transition? state label := by
  simp only [transition?, addTransition, Std.ExtTreeMap.getElem?_insert,
    Std.LawfulEqCmp.compare_eq_iff_eq, Prod.mk.injEq]

theorem runFrom_append {dfa : Dfa} {state : StateId} {u v : List Char} :
    dfa.runFrom state (u ++ v) = (dfa.runFrom state u).bind fun middle => dfa.runFrom middle v := by
  induction u generalizing state with
  | nil => rfl
  | cons char rest ih => simp only [List.cons_append, runFrom, ih, Option.bind_assoc]

@[simp] theorem run_nil (dfa : Dfa) : dfa.run [] = dfa.start := by
  simp [run, runFrom]

theorem run_append {dfa : Dfa} {u v : List Char} :
    dfa.run (u ++ v) = (dfa.run u).bind fun middle => dfa.runFrom middle v := by
  simp [run, runFrom_append, Option.bind_assoc]

theorem run_append_singleton {dfa : Dfa} {word : List Char} {char : Char} :
    dfa.run (word ++ [char]) = (dfa.run word).bind (dfa.transition? · char) := by
  simp [run_append, runFrom]

theorem states?_addState_of_some {dfa : Dfa} {states : StateSet} {state : StateId} (added : StateSet)
    (known : dfa.states? state = some states) : (dfa.addState added).2.states? state = some states := by
  have inside : state.toNat < dfa.sets.size := (Array.getElem?_eq_some_iff.mp known).1
  rw [states?, addState, Array.getElem?_push_lt inside, ← Array.getElem?_eq_getElem inside]
  exact known

/-- The states are counted as long as the numbers do not run out. -/
theorem toNat_numStates {dfa : Dfa} (room : dfa.sets.size < UInt32.size) : dfa.numStates.toNat = dfa.sets.size :=
  UInt32.toNat_ofNat_of_lt' room

/-- A new state stands for its set as long as the numbers do not run out. -/
theorem states?_addState_numStates {dfa : Dfa} (added : StateSet) (room : dfa.sets.size < UInt32.size) :
    (dfa.addState added).2.states? dfa.numStates = some added := by
  rw [states?, addState, toNat_numStates room]
  exact Array.getElem?_push_size

theorem states?_addState_cases {dfa : Dfa} {added states : StateSet} {state : StateId}
    (known : (dfa.addState added).2.states? state = some states) :
    dfa.states? state = some states ∨ state = dfa.numStates ∧ states = added := by
  rw [states?, addState, Array.getElem?_push] at known
  by_cases last : state.toNat = dfa.sets.size
  · rw [if_pos last] at known
    refine .inr ⟨?_, (Option.some.inj known).symm⟩
    rw [numStates, ← last, UInt32.ofNat_toNat]
  · rw [if_neg last] at known
    exact .inl known

theorem states?_of_stateOf? {dfa : Dfa} {states : StateSet} {state : StateId}
    (room : dfa.sets.size ≤ UInt32.size) (found : dfa.stateOf? states = some state) :
    dfa.states? state = some states := by
  obtain ⟨index, first, rfl⟩ := Option.map_eq_some_iff.mp found
  rw [Array.idxOf?] at first
  obtain ⟨place, isFirst, rfl⟩ := Option.map_eq_some_iff.mp first
  have same := (Array.finIdxOf?_eq_some_iff.mp isFirst).1
  have number : (UInt32.ofNat place.val).toNat = place.val := UInt32.toNat_ofNat_of_lt' (by omega)
  rw [states?, number]
  exact Array.getElem?_eq_some_iff.mpr ⟨place.isLt, same⟩

theorem states?_ne_of_stateOf?_eq_none {dfa : Dfa} {states : StateSet} (unknown : dfa.stateOf? states = none)
    (state : StateId) : dfa.states? state ≠ some states := by
  intro known
  rw [stateOf?, Option.map_eq_none_iff, Array.idxOf?_eq_none_iff] at unknown
  exact unknown (Array.mem_of_getElem? known)

theorem exists_states?_iff {dfa : Dfa} {state : StateId} :
    (∃ states, dfa.states? state = some states) ↔ state.toNat < dfa.sets.size := by
  constructor
  · rintro ⟨states, known⟩
    exact (Array.getElem?_eq_some_iff.mp known).1
  · intro inside
    exact ⟨_, Array.getElem?_eq_getElem inside⟩

theorem lt_numStates_iff {dfa : Dfa} (room : dfa.sets.size < UInt32.size) {state : StateId} :
    state < dfa.numStates ↔ ∃ states, dfa.states? state = some states := by
  rw [exists_states?_iff, UInt32.lt_iff_toNat_lt, toNat_numStates room]

theorem mem_successors {dfa : Dfa} {state target : StateId} :
    target ∈ dfa.successors state ↔ ∃ char ∈ dfa.alphabet, dfa.transition? state char = some target := by
  simp [successors]

end Dfa

end RegexCompiler
