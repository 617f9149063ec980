import RegexCompiler.StateSet
import RegexCompiler.Symbol
import Std.Data.ExtTreeMap

/-!
A row without targets is never kept, so tables with the same transitions are the same value
(`ext_transitions`).
-/

namespace RegexCompiler

/-- A move of a nondeterministic automaton. -/
structure Transition where
  source : StateId
  symbol : Symbol
  target : StateId
deriving DecidableEq

/-- The targets of every state on every symbol. -/
structure TransitionTable where
  rows : Std.ExtTreeMap (StateId × Symbol) StateSet rowOrder := ∅
  targets_ne_empty : ∀ (key : StateId × Symbol) (targets : StateSet),
    rows[key]? = some targets → targets ≠ ∅ := by simp

namespace TransitionTable

/-- The table without transitions. -/
def empty : TransitionTable where

instance : EmptyCollection TransitionTable := ⟨empty⟩

/-- The row of a state on a symbol, if there is one. -/
def row? (table : TransitionTable) (source : StateId) (symbol : Symbol) : Option StateSet :=
  table.rows[(source, symbol)]?

/-- The states that a state leads to on a symbol. -/
def targets (table : TransitionTable) (source : StateId) (symbol : Symbol) : StateSet :=
  (table.row? source symbol).getD ∅

/-- Adds a transition; one that is there already changes nothing. -/
def insert (table : TransitionTable) (transition : Transition) : TransitionTable where
  rows := table.rows.insert (transition.source, transition.symbol)
    ((table.targets transition.source transition.symbol).insert transition.target)
  targets_ne_empty := by
    intro key targets row empty
    subst empty
    rw [Std.ExtTreeMap.getElem?_insert] at row
    split at row
    · have member : transition.target ∈ (∅ : StateSet) := by
        rw [← Option.some.inj row]
        exact StateSet.mem_insert_iff.2 (.inl rfl)
      simp at member
    · exact table.targets_ne_empty key ∅ row rfl

/-- The rows in order: a state, a symbol, and where they lead. -/
def toList (table : TransitionTable) : List ((StateId × Symbol) × StateSet) :=
  table.rows.toList

instance : Membership Transition TransitionTable where
  mem table transition := transition.target ∈ table.targets transition.source transition.symbol

theorem mem_def {table : TransitionTable} {transition : Transition} :
    transition ∈ table ↔ transition.target ∈ table.targets transition.source transition.symbol :=
  Iff.rfl

@[simp] theorem not_mem_empty (transition : Transition) : transition ∉ (∅ : TransitionTable) := by
  have noRow : (∅ : TransitionTable).row? transition.source transition.symbol = none :=
    Std.ExtTreeMap.getElem?_empty
  rw [mem_def, targets, noRow]
  exact StateSet.not_mem_empty _

theorem mem_insert {table : TransitionTable} {added transition : Transition} :
    transition ∈ table.insert added ↔ transition = added ∨ transition ∈ table := by
  obtain ⟨source, symbol, target⟩ := transition
  obtain ⟨addedSource, addedSymbol, addedTarget⟩ := added
  simp only [mem_def, targets, row?, insert, Std.ExtTreeMap.getElem?_insert,
    Std.LawfulEqCmp.compare_eq_iff_eq, Prod.mk.injEq, Transition.mk.injEq]
  split
  · rename_i same
    obtain ⟨rfl, rfl⟩ := same
    simp only [true_and, Option.getD_some, StateSet.mem_insert_iff]
  · rename_i other
    constructor
    · exact .inr
    · rintro (⟨rfl, rfl, rfl⟩ | member)
      · exact absurd ⟨rfl, rfl⟩ other
      · exact member

theorem row?_eq_some_iff {table : TransitionTable} {source : StateId} {symbol : Symbol} {targets : StateSet} :
    table.row? source symbol = some targets ↔ targets ≠ ∅ ∧ table.targets source symbol = targets := by
  constructor
  · intro row
    exact ⟨table.targets_ne_empty _ _ row, by simp [TransitionTable.targets, row]⟩
  · rintro ⟨nonempty, rfl⟩
    cases row : table.row? source symbol with
    | none => simp [TransitionTable.targets, row] at nonempty
    | some found => simp [TransitionTable.targets, row]

theorem ext_transitions {left right : TransitionTable}
    (same : ∀ transition, transition ∈ left ↔ transition ∈ right) : left = right := by
  have targetsEq (source : StateId) (symbol : Symbol) :
      left.targets source symbol = right.targets source symbol :=
    Std.ExtTreeSet.ext_mem fun target => same ⟨source, symbol, target⟩
  have rowsEq : left.rows = right.rows := by
    refine Std.ExtTreeMap.ext_getElem? fun (source, symbol) => ?_
    refine Option.ext fun targets => ?_
    change left.row? source symbol = some targets ↔ right.row? source symbol = some targets
    rw [row?_eq_some_iff, row?_eq_some_iff, targetsEq]
  cases left
  cases right
  cases rowsEq
  rfl

end TransitionTable

/-- A way through a table and the word that is read on it. -/
inductive Path (table : TransitionTable) : StateId → List Char → StateId → Prop where
  | refl (state : StateId) : Path table state [] state
  | epsilon {source middle target : StateId} {word : List Char} :
    ⟨source, .epsilon, middle⟩ ∈ table → Path table middle word target → Path table source word target
  | literal {source middle target : StateId} {char : Char} {word : List Char} :
    ⟨source, .literal char, middle⟩ ∈ table → Path table middle word target →
      Path table source (char :: word) target

theorem Path.trans {table : TransitionTable} {source middle target : StateId} {u v : List Char}
    (first : Path table source u middle) (second : Path table middle v target) :
    Path table source (u ++ v) target := by
  induction first with
  | refl => exact second
  | epsilon edge _ ih => exact .epsilon edge (ih second)
  | literal edge _ ih => exact .literal edge (ih second)

end RegexCompiler
