import Mathlib.Tactic.Tauto
import RegexCompiler.Proofs.Layout

/-!
A concatenation takes no state of its own, so a chain of operands has the same automaton however it is
associated.
-/

namespace RegexCompiler

/-- The trees differ at most in how their chains of concatenations are associated, at
    any depth. -/
inductive Reassociates : Tree → Tree → Prop where
  | rotate (first second third : Tree) :
    Reassociates (.concat first (.concat second third)) (.concat (.concat first second) third)
  | refl (t : Tree) : Reassociates t t
  | symm {t t' : Tree} : Reassociates t t' → Reassociates t' t
  | trans {t t' t'' : Tree} : Reassociates t t' → Reassociates t' t'' → Reassociates t t''
  | concat {first first' second second' : Tree} : Reassociates first first' → Reassociates second second' →
    Reassociates (.concat first second) (.concat first' second')
  | alternation {left left' right right' : Tree} : Reassociates left left' → Reassociates right right' →
    Reassociates (.alternation left right) (.alternation left' right')
  | star {inner inner' : Tree} : Reassociates inner inner' → Reassociates (.star inner) (.star inner')

/-! ## Chains nested to the right -/

namespace Tree

/-- Puts a tree behind the last link of a chain. -/
def chain : Tree → Tree → Tree
  | .concat link rest, second => .concat link (rest.chain second)
  | link, second => .concat link second

/-- The tree with all chains of concatenations nested to the right. -/
def chained : Tree → Tree
  | .literal char => .literal char
  | .concat first second => first.chained.chain second.chained
  | .alternation left right => .alternation left.chained right.chained
  | .star inner => .star inner.chained

theorem chain_assoc (first second third : Tree) :
    (first.chain second).chain third = first.chain (second.chain third) := by
  induction first with
  | literal | alternation | star => rfl
  | concat link rest _ ih => exact congrArg (Tree.concat link) ih

theorem reassociates_chain (first second : Tree) : Reassociates (.concat first second) (first.chain second) := by
  induction first with
  | literal | alternation | star => exact .refl _
  | concat link rest _ ih => exact (Reassociates.rotate link rest second).symm.trans (.concat (.refl link) ih)

theorem reassociates_chained (t : Tree) : Reassociates t t.chained := by
  induction t with
  | literal => exact .refl _
  | concat _ _ ih ih' => exact (Reassociates.concat ih ih').trans (reassociates_chain _ _)
  | alternation _ _ ih ih' => exact .alternation ih ih'
  | star _ ih => exact .star ih

end Tree

theorem Reassociates.chained_eq {t t' : Tree} (same : Reassociates t t') : t.chained = t'.chained := by
  induction same with
  | rotate first second third => exact (Tree.chain_assoc _ _ _).symm
  | refl => rfl
  | symm _ ih => exact ih.symm
  | trans _ _ ih ih' => exact ih.trans ih'
  | concat _ _ ih ih' | alternation _ _ ih ih' => simp only [Tree.chained, ih, ih']
  | star _ ih => simp only [Tree.chained, ih]

theorem reassociates_iff {t t' : Tree} : Reassociates t t' ↔ t.chained = t'.chained := by
  constructor
  · exact Reassociates.chained_eq
  · intro same
    exact t.reassociates_chained.trans (same ▸ t'.reassociates_chained.symm)

instance (t t' : Tree) : Decidable (Reassociates t t') :=
  decidable_of_iff _ reassociates_iff.symm

/-! ## The same layout -/

namespace Reassociates

variable {t t' : Tree} (same : Reassociates t t')
include same

theorem stateCount_eq : t.stateCount = t'.stateCount := by
  induction same with
  | rotate => simp only [Tree.stateCount, Nat.add_assoc]
  | refl => rfl
  | symm _ ih => exact ih.symm
  | trans _ _ ih ih' => exact ih.trans ih'
  | concat _ _ ih ih' | alternation _ _ ih ih' => simp only [Tree.stateCount, ih, ih']
  | star _ ih => simp only [Tree.stateCount, ih]

theorem fragment_eq (base : Nat) : t.fragment base = t'.fragment base := by
  induction same generalizing base with
  | rotate => simp only [Tree.fragment, Tree.stateCount, Nat.add_assoc]
  | refl => rfl
  | symm _ ih => exact (ih base).symm
  | trans _ _ ih ih' => exact (ih base).trans (ih' base)
  | concat first second ih ih' => simp only [Tree.fragment, first.stateCount_eq, ih, ih']
  | alternation left right => simp only [Tree.fragment, left.stateCount_eq, right.stateCount_eq]
  | star inner => simp only [Tree.fragment, inner.stateCount_eq]

/-- The transitions are the same, although a chain states its joints in another
    order. -/
theorem mem_edges_iff (base : Nat) (edge : Transition) : edge ∈ t.edges base ↔ edge ∈ t'.edges base := by
  induction same generalizing base with
  | rotate first second third =>
    simp only [Tree.edges, Tree.fragment, Tree.stateCount, Nat.add_assoc, Nfa.Fragment.concatEdges, List.mem_append,
      List.mem_singleton]
    tauto
  | refl => rfl
  | symm _ ih => exact (ih base).symm
  | trans _ _ ih ih' => exact (ih base).trans (ih' base)
  | concat first second ih ih' =>
    simp only [Tree.edges, List.mem_append, ih, ih', first.stateCount_eq, first.fragment_eq, second.fragment_eq]
  | alternation left right ih ih' =>
    simp only [Tree.edges, List.mem_append, ih, ih', left.stateCount_eq, right.stateCount_eq, left.fragment_eq,
      right.fragment_eq]
  | star inner ih => simp only [Tree.edges, List.mem_append, ih, inner.stateCount_eq, inner.fragment_eq]

theorem nfa_eq : t.nfa = t'.nfa := by
  have table : TransitionTable.ofList (t.edges 0) = .ofList (t'.edges 0) := by
    refine TransitionTable.ext_transitions fun edge => ?_
    rw [TransitionTable.mem_ofList, TransitionTable.mem_ofList, same.mem_edges_iff]
  rw [Tree.nfa, Tree.nfa, same.stateCount_eq, same.fragment_eq, table]

end Reassociates

/-- The postorders of two trees that differ only in how chains of concatenations are
    associated, with any positions, are assembled to one and the same automaton, and
    so to the same table and the same deterministic automaton over every alphabet. -/
theorem Nfa.ofPostfix_reassociates {t t' : Tree} (same : Reassociates t t') {lexemes lexemes' : List Lexeme}
    (spelled : lexemes.map (·.token) = t.postorder) (spelled' : lexemes'.map (·.token) = t'.postorder) :
    ∃ nfa, ofPostfix lexemes = .ok nfa ∧ ofPostfix lexemes' = .ok nfa := by
  refine ⟨t.nfa, ofPostfix_postorder t spelled, ?_⟩
  rw [ofPostfix_postorder t' spelled', same.nfa_eq]

/-- A chain of four, one of them a repetition with a chain inside. -/
theorem Nfa.ofPostfix_reassociates_chains :
    ∃ nfa, ofPostfix [⟨.literal 'a', 0⟩, ⟨.literal 'b', 1⟩, ⟨.literal 'c', 2⟩, ⟨.literal 'd', 3⟩, ⟨.concat, 4⟩,
        ⟨.concat, 5⟩, ⟨.star, 6⟩, ⟨.literal 'e', 7⟩, ⟨.literal 'f', 8⟩, ⟨.concat, 9⟩, ⟨.concat, 10⟩, ⟨.concat, 11⟩] =
        .ok nfa ∧
      ofPostfix [⟨.literal 'a', 0⟩, ⟨.literal 'b', 0⟩, ⟨.literal 'c', 0⟩, ⟨.concat, 0⟩, ⟨.literal 'd', 0⟩, ⟨.concat, 0⟩,
        ⟨.star, 0⟩, ⟨.concat, 0⟩, ⟨.literal 'e', 0⟩, ⟨.concat, 0⟩, ⟨.literal 'f', 0⟩, ⟨.concat, 0⟩] = .ok nfa := by
  let nested : Tree := .star (.concat (.literal 'b') (.concat (.literal 'c') (.literal 'd')))
  let nested' : Tree := .star (.concat (.concat (.literal 'b') (.literal 'c')) (.literal 'd'))
  have same : Reassociates (.concat (.literal 'a') (.concat nested (.concat (.literal 'e') (.literal 'f'))))
      (.concat (.concat (.concat (.literal 'a') nested') (.literal 'e')) (.literal 'f')) := by
    decide
  exact ofPostfix_reassociates same rfl rfl

end RegexCompiler
