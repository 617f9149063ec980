import Mathlib.Data.Char
import RegexCompiler.Exploration
import RegexCompiler.Assembly
import RegexCompiler.Report

namespace RegexCompiler

/-! ## The order of rows -/

/-- Literals stand in the order of their code points, and epsilon stands last. -/
def Symbol.Before : Symbol → Symbol → Prop
  | .literal left, .literal right => left < right
  | .literal _, .epsilon => True
  | .epsilon, _ => False

/-- A row stands before those of later states, and before those of its own state with
    later labels. -/
def RowBefore (earlier later : StateId × Symbol) : Prop :=
  earlier.1 < later.1 ∨ earlier.1 = later.1 ∧ earlier.2.Before later.2

theorem Symbol.order_eq_lt_iff {left right : Symbol} : compare left right = .lt ↔ left.Before right := by
  cases left with
  | literal left =>
    cases right with
    | literal right => exact (compare_lt_iff_lt : compare left right = .lt ↔ left < right)
    | epsilon => exact ⟨fun _ => trivial, fun _ => rfl⟩
  | epsilon =>
    cases right with
    | literal right => exact ⟨Ordering.noConfusion, False.elim⟩
    | epsilon => exact ⟨Ordering.noConfusion, False.elim⟩

theorem rowOrder_eq_lt_iff {left right : StateId × Symbol} : rowOrder left right = .lt ↔ RowBefore left right := by
  have states : compare left.1 right.1 = .lt ↔ left.1 < right.1 := Std.compare_eq_lt
  have same : compare left.1 right.1 = .eq ↔ left.1 = right.1 := Std.LawfulEqOrd.compare_eq_iff_eq
  have lexicographic : rowOrder left right = (compare left.1 right.1).then (compare left.2 right.2) := rfl
  rw [lexicographic, Ordering.then_eq_lt, states, same, Symbol.order_eq_lt_iff, RowBefore]

namespace TransitionTable

theorem ascending_toList (table : TransitionTable) :
    table.toList.Pairwise fun earlier later => RowBefore earlier.1 later.1 :=
  Std.ExtTreeMap.ordered_keys_toList.imp rowOrder_eq_lt_iff.mp

theorem toList_inj {left right : TransitionTable} : left.toList = right.toList ↔ left = right := by
  constructor
  · intro same
    have rows : left.rows = right.rows := Std.ExtTreeMap.toList_inj.mp same
    cases left
    cases right
    cases rows
    rfl
  · rintro rfl
    rfl

theorem mem_toList {table : TransitionTable} {source : StateId} {symbol : Symbol} {targets : StateSet} :
    ((source, symbol), targets) ∈ table.toList ↔ table.row? source symbol = some targets :=
  Std.ExtTreeMap.mem_toList_iff_getElem?_eq_some

theorem mem_iff_mem_toList {table : TransitionTable} {source : StateId} {symbol : Symbol} {target : StateId} :
    ⟨source, symbol, target⟩ ∈ table ↔ ∃ targets, ((source, symbol), targets) ∈ table.toList ∧ target ∈ targets := by
  simp only [mem_toList, row?_eq_some_iff, mem_def]
  constructor
  · intro member
    refine ⟨_, ⟨fun empty => ?_, rfl⟩, member⟩
    exact StateSet.not_mem_empty target (empty ▸ member)
  · rintro ⟨_, ⟨_, rfl⟩, member⟩
    exact member

end TransitionTable

/-! ## Calls -/

namespace Nfa.Builder

/-- A call on a builder. -/
inductive Call where
  | newState
  | connectLiteral (source : StateId) (char : Char) (target : StateId)
  | connectEpsilon (source target : StateId)
deriving DecidableEq

/-- The transition that a call adds. -/
def Call.transition? : Call → Option Transition
  | .newState => none
  | .connectLiteral source char target => some ⟨source, .literal char, target⟩
  | .connectEpsilon source target => some ⟨source, .epsilon, target⟩

/-- Some call of a history adds the transition. -/
def Adds (calls : List Call) (transition : Transition) : Prop :=
  ∃ call ∈ calls, call.transition? = some transition

/-- The builder after a call. -/
def afterCall (builder : Builder) : Call → Builder
  | .newState => builder.newState.2
  | .connectLiteral source char target => builder.connectLiteral source char target
  | .connectEpsilon source target => builder.connectEpsilon source target

/-- The builder after a history of calls. -/
def afterCalls (calls : List Call) : Builder :=
  calls.foldl afterCall {}

theorem mem_afterCall {builder : Builder} {call : Call} {transition : Transition} :
    transition ∈ (builder.afterCall call).transitions ↔
      call.transition? = some transition ∨ transition ∈ builder.transitions := by
  cases call with
  | newState => simp [afterCall, newState, Call.transition?]
  | connectLiteral source char target =>
    rw [afterCall, connectLiteral, mem_connect, Call.transition?, Option.some.injEq, eq_comm]
  | connectEpsilon source target =>
    rw [afterCall, connectEpsilon, mem_connect, Call.transition?, Option.some.injEq, eq_comm]

theorem numStates_afterCall (builder : Builder) (call : Call) :
    (builder.afterCall call).numStates = builder.numStates + UInt32.ofNat ([call].count .newState) := by
  cases call <;> simp [afterCall, newState, connectLiteral, connectEpsilon, connect]

theorem mem_foldl_afterCall {builder : Builder} {calls : List Call} {transition : Transition} :
    transition ∈ (calls.foldl afterCall builder).transitions ↔
      Adds calls transition ∨ transition ∈ builder.transitions := by
  induction calls generalizing builder with
  | nil => simp [Adds]
  | cons call rest ih =>
    have here : Adds (call :: rest) transition ↔ call.transition? = some transition ∨ Adds rest transition := by
      simp only [Adds, List.mem_cons, exists_eq_or_imp]
    rw [List.foldl_cons, ih, mem_afterCall, here, or_left_comm, or_assoc]

theorem numStates_foldl_afterCall (builder : Builder) (calls : List Call) :
    (calls.foldl afterCall builder).numStates = builder.numStates + UInt32.ofNat (calls.count .newState) := by
  induction calls generalizing builder with
  | nil => simp
  | cons call rest ih =>
    rw [List.foldl_cons, ih, numStates_afterCall, UInt32.add_assoc, ← UInt32.ofNat_add, ← List.count_append]
    rfl

/-- The collected transitions are those that some call added. -/
theorem mem_afterCalls {calls : List Call} {transition : Transition} :
    transition ∈ (afterCalls calls).transitions ↔ Adds calls transition := by
  rw [afterCalls, mem_foldl_afterCall]
  exact or_iff_left (TransitionTable.not_mem_empty transition)

/-- Histories that hand out as many states and add the same transitions leave the same
    builder behind. -/
theorem afterCalls_congr {calls calls' : List Call} (states : calls'.count .newState = calls.count .newState)
    (added : ∀ transition, Adds calls' transition ↔ Adds calls transition) : afterCalls calls' = afterCalls calls := by
  have counts : (afterCalls calls').numStates = (afterCalls calls).numStates := by
    rw [afterCalls, afterCalls, numStates_foldl_afterCall, numStates_foldl_afterCall, states]
  have tables : (afterCalls calls').transitions = (afterCalls calls).transitions :=
    TransitionTable.ext_transitions fun transition => by rw [mem_afterCalls, mem_afterCalls, added]
  cases builder : afterCalls calls
  cases builder' : afterCalls calls'
  rw [builder, builder'] at counts tables
  rw [Builder.mk.injEq]
  exact ⟨counts, tables⟩

/-- After any history the rows are listed by state and then by label, none is empty, and
    they list just the transitions that were added. So neither the order of the calls
    nor how often one is made shows in the automaton, in what it reads and in the
    deterministic automata that it gives. -/
theorem finish_history (calls : List Call) (start accept : StateId) :
    let nfa := (afterCalls calls).finish start accept
    (nfa.transitions.toList.Pairwise fun earlier later => RowBefore earlier.1 later.1) ∧
    (∀ row ∈ nfa.transitions.toList, row.2 ≠ ∅) ∧
    (∀ source symbol target, (∃ targets, ((source, symbol), targets) ∈ nfa.transitions.toList ∧ target ∈ targets) ↔
      Adds calls ⟨source, symbol, target⟩) ∧
    ∀ calls' : List Call, calls'.count .newState = calls.count .newState →
      (∀ transition, Adds calls' transition ↔ Adds calls transition) →
      let nfa' := (afterCalls calls').finish start accept
      nfa'.numStates = nfa.numStates ∧ nfa'.start = nfa.start ∧ nfa'.accept = nfa.accept ∧
        nfa'.transitions.toList = nfa.transitions.toList ∧ nfa'.table = nfa.table ∧
        (∀ states, nfa'.closure states = nfa.closure states) ∧
        (∀ states char, nfa'.move states char = nfa.move states char) ∧
        (∀ word, nfa'.accepts word = nfa.accepts word) ∧
        ∀ alphabet, nfa'.toDfa alphabet = nfa.toDfa alphabet := by
  intro nfa
  refine ⟨nfa.transitions.ascending_toList, ?_, fun source symbol target => ?_, fun calls' states added => ?_⟩
  · rintro ⟨⟨source, symbol⟩, targets⟩ row
    exact (TransitionTable.row?_eq_some_iff.mp (TransitionTable.mem_toList.mp row)).1
  · rw [← TransitionTable.mem_iff_mem_toList]
    exact mem_afterCalls
  · have same : (afterCalls calls').finish start accept = nfa := by rw [afterCalls_congr states added]
    rw [same]
    exact ⟨rfl, rfl, rfl, rfl, rfl, fun _ => rfl, fun _ _ => rfl, fun _ => rfl, fun _ => rfl⟩

/-- A transition that is added twice, and before its states are handed out. -/
theorem finish_history_repeated :
    let calls : List Call := [.newState, .connectEpsilon 7 0, .connectLiteral 0 'ε' 7, .connectEpsilon 0 7, .newState]
    let calls' : List Call :=
      [.connectEpsilon 0 7, .connectLiteral 0 'ε' 7, .connectEpsilon 0 7, .newState, .newState, .connectEpsilon 7 0]
    calls'.count .newState = calls.count .newState ∧ (∀ transition, Adds calls' transition ↔ Adds calls transition) ∧
      ((afterCalls calls').finish 0 7).table = ((afterCalls calls).finish 0 7).table ∧
      ∀ alphabet, ((afterCalls calls').finish 0 7).toDfa alphabet = ((afterCalls calls).finish 0 7).toDfa alphabet := by
  intro calls calls'
  have states : calls'.count .newState = calls.count .newState := by decide
  have added : ∀ transition, Adds calls' transition ↔ Adds calls transition := by
    simp [calls, calls', Adds, Call.transition?]
    grind
  have same := (finish_history calls 0 7).2.2.2 calls' states added
  exact ⟨states, added, same.2.2.2.2.1, same.2.2.2.2.2.2.2.2⟩

end Nfa.Builder

end RegexCompiler
