import RegexCompiler.Assembly
import RegexCompiler.Tree

/-! What the automaton of an expression looks like, without assembling it (`ofPostfix_postorder`). -/

namespace RegexCompiler

namespace TransitionTable

/-- Adds the listed transitions one after another. -/
def insertAll (table : TransitionTable) (added : List Transition) : TransitionTable :=
  added.foldl insert table

def ofList (transitions : List Transition) : TransitionTable :=
  empty.insertAll transitions

theorem mem_insertAll {table : TransitionTable} {added : List Transition} {transition : Transition} :
    transition ∈ table.insertAll added ↔ transition ∈ added ∨ transition ∈ table := by
  induction added generalizing table with
  | nil => simp [insertAll]
  | cons first rest ih =>
    have next := @ih (table.insert first)
    rw [mem_insert] at next
    rw [List.mem_cons, or_assoc, or_left_comm]
    exact next

@[simp] theorem mem_ofList {transitions : List Transition} {transition : Transition} :
    transition ∈ ofList transitions ↔ transition ∈ transitions := by
  rw [ofList, mem_insertAll]
  exact or_iff_left (not_mem_empty transition)

theorem insertAll_append (table : TransitionTable) (first second : List Transition) :
    table.insertAll (first ++ second) = (table.insertAll first).insertAll second :=
  List.foldl_append

/-- All transitions of a table, row by row. -/
def moves (table : TransitionTable) : List Transition :=
  table.toList.flatMap fun row => row.2.toList.map (⟨row.1.1, row.1.2, ·⟩)

@[simp] theorem mem_moves {table : TransitionTable} {transition : Transition} :
    transition ∈ table.moves ↔ transition ∈ table := by
  obtain ⟨source, symbol, target⟩ := transition
  rw [moves, List.mem_flatMap, mem_def]
  constructor
  · rintro ⟨⟨⟨_, _⟩, targets⟩, listed, member⟩
    obtain ⟨_, inRow, same⟩ := List.mem_map.mp member
    obtain ⟨rfl, rfl, rfl⟩ := Transition.mk.inj same
    have row : table.row? _ _ = some targets :=
      Std.ExtTreeMap.mem_toList_iff_getElem?_eq_some.mp listed
    rw [(row?_eq_some_iff.mp row).2]
    exact Std.ExtTreeSet.mem_toList.mp inRow
  · intro member
    have row : table.row? source symbol = some (table.targets source symbol) := by
      refine row?_eq_some_iff.mpr ⟨?_, rfl⟩
      intro none
      rw [none] at member
      exact StateSet.not_mem_empty _ member
    exact ⟨((source, symbol), _), Std.ExtTreeMap.mem_toList_iff_getElem?_eq_some.mpr row,
      List.mem_map.mpr ⟨target, Std.ExtTreeSet.mem_toList.mpr member, rfl⟩⟩

end TransitionTable

namespace Nfa.Fragment

/-- The fragment between a state and the next one. -/
def between (number : Nat) : Fragment :=
  ⟨.ofNat number, .ofNat (number + 1)⟩

/-- The transitions that let `second` follow `first`. -/
def concatEdges (first second : Fragment) : List Transition :=
  [⟨first.accept, .epsilon, second.start⟩]

/-- The transitions that make `whole` a choice of two fragments. -/
def alternationEdges (whole left right : Fragment) : List Transition :=
  [⟨whole.start, .epsilon, left.start⟩, ⟨whole.start, .epsilon, right.start⟩,
   ⟨left.accept, .epsilon, whole.accept⟩, ⟨right.accept, .epsilon, whole.accept⟩]

/-- The transitions that make `whole` a repetition of `inner`. -/
def starEdges (whole inner : Fragment) : List Transition :=
  [⟨whole.start, .epsilon, inner.start⟩, ⟨whole.start, .epsilon, whole.accept⟩,
   ⟨inner.accept, .epsilon, inner.start⟩, ⟨inner.accept, .epsilon, whole.accept⟩]

end Nfa.Fragment

namespace Tree

/-- How many states the automaton of an expression gets. -/
def stateCount : Tree → Nat
  | .literal _ => 2
  | .concat first second => first.stateCount + second.stateCount
  | .alternation left right => left.stateCount + right.stateCount + 2
  | .star inner => inner.stateCount + 2

/-- The fragment of an expression whose states are numbered from `base` on. An
    operator that needs states of its own takes those after its operands. -/
def fragment (base : Nat) : Tree → Nfa.Fragment
  | .literal _ => .between base
  | .concat first second => ⟨(first.fragment base).start, (second.fragment (base + first.stateCount)).accept⟩
  | .alternation left right => .between (base + left.stateCount + right.stateCount)
  | .star inner => .between (base + inner.stateCount)

/-- The transitions of an expression whose states are numbered from `base` on,
    those of the operands first. -/
def edges (base : Nat) : Tree → List Transition
  | .literal char => [⟨.ofNat base, .literal char, .ofNat (base + 1)⟩]
  | .concat first second =>
    let middle := base + first.stateCount
    first.edges base ++ second.edges middle ++ (first.fragment base).concatEdges (second.fragment middle)
  | .alternation left right =>
    let middle := base + left.stateCount
    left.edges base ++ right.edges middle ++
      (Nfa.Fragment.between (middle + right.stateCount)).alternationEdges (left.fragment base) (right.fragment middle)
  | .star inner =>
    inner.edges base ++ (Nfa.Fragment.between (base + inner.stateCount)).starEdges (inner.fragment base)

/-- The automaton of an expression. -/
def nfa (t : Tree) : Nfa where
  numStates := .ofNat t.stateCount
  start := (t.fragment 0).start
  accept := (t.fragment 0).accept
  transitions := .ofList (t.edges 0)

end Tree

namespace Nfa

theorem ofNat_add_one (number : Nat) : UInt32.ofNat number + 1 = UInt32.ofNat (number + 1) :=
  (UInt32.ofNat_add number 1).symm

namespace Assembly

/-! ### What each lexeme adds -/

theorem push_literal (next : Nat) (table : TransitionTable) (rest : List Fragment) (char : Char) :
    push rest (Builder.literal ⟨.ofNat next, table⟩ char) =
      ⟨⟨.ofNat (next + 2), table.insertAll ((Tree.literal char).edges next)⟩,
        (Tree.literal char).fragment next :: rest⟩ := by
  simp only [push, Builder.literal, Builder.newState, Builder.connectLiteral, Builder.connect, ofNat_add_one]
  rfl

theorem push_alternation (next : Nat) (table : TransitionTable) (rest : List Fragment) (left right : Fragment) :
    push rest (Builder.alternation ⟨.ofNat next, table⟩ left right) =
      ⟨⟨.ofNat (next + 2), table.insertAll ((Fragment.between next).alternationEdges left right)⟩,
        .between next :: rest⟩ := by
  simp only [push, Builder.alternation, Builder.newState, Builder.connectEpsilon, Builder.connect, ofNat_add_one]
  rfl

theorem push_star (next : Nat) (table : TransitionTable) (rest : List Fragment) (inner : Fragment) :
    push rest (Builder.star ⟨.ofNat next, table⟩ inner) =
      ⟨⟨.ofNat (next + 2), table.insertAll ((Fragment.between next).starEdges inner)⟩, .between next :: rest⟩ := by
  simp only [push, Builder.star, Builder.newState, Builder.connectEpsilon, Builder.connect, ofNat_add_one]
  rfl

/-- From any point of an assembly, the lexemes of an expression put its fragment
    on the stack and add its states and transitions after all others. -/
theorem foldlM_postorder (t : Tree) {lexemes : List Lexeme} (spelled : lexemes.map (·.token) = t.postorder)
    (base : Nat) (table : TransitionTable) (rest : List Fragment) :
    lexemes.foldlM step ⟨⟨.ofNat base, table⟩, rest⟩ =
      .ok ⟨⟨.ofNat (base + t.stateCount), table.insertAll (t.edges base)⟩, t.fragment base :: rest⟩ := by
  induction t generalizing lexemes base table rest with
  | literal char =>
    obtain ⟨⟨token, position⟩, rfl, rfl⟩ := List.map_eq_singleton_iff.mp spelled
    exact congrArg Except.ok (push_literal base table rest char)
  | concat first second ihFirst ihSecond =>
    obtain ⟨operands, operator, rfl, spelledOperands, spelledOperator⟩ := List.map_eq_append_iff.mp spelled
    obtain ⟨before, after, rfl, spelledFirst, spelledSecond⟩ := List.map_eq_append_iff.mp spelledOperands
    obtain ⟨⟨token, position⟩, rfl, rfl⟩ := List.map_eq_singleton_iff.mp spelledOperator
    rw [List.append_assoc, foldlM_append_of_ok (ihFirst spelledFirst base table rest),
      foldlM_append_of_ok (ihSecond spelledSecond _ _ _), Tree.stateCount, Tree.edges,
      TransitionTable.insertAll_append, TransitionTable.insertAll_append, ← Nat.add_assoc]
    rfl
  | alternation left right ihLeft ihRight =>
    obtain ⟨operands, operator, rfl, spelledOperands, spelledOperator⟩ := List.map_eq_append_iff.mp spelled
    obtain ⟨before, after, rfl, spelledLeft, spelledRight⟩ := List.map_eq_append_iff.mp spelledOperands
    obtain ⟨⟨token, position⟩, rfl, rfl⟩ := List.map_eq_singleton_iff.mp spelledOperator
    rw [List.append_assoc, foldlM_append_of_ok (ihLeft spelledLeft base table rest),
      foldlM_append_of_ok (ihRight spelledRight _ _ _), Tree.stateCount, Tree.edges,
      TransitionTable.insertAll_append, TransitionTable.insertAll_append, ← Nat.add_assoc, ← Nat.add_assoc]
    exact congrArg Except.ok (push_alternation _ _ rest _ _)
  | star inner ih =>
    obtain ⟨before, operator, rfl, spelledInner, spelledOperator⟩ := List.map_eq_append_iff.mp spelled
    obtain ⟨⟨token, position⟩, rfl, rfl⟩ := List.map_eq_singleton_iff.mp spelledOperator
    rw [foldlM_append_of_ok (ih spelledInner base table rest), Tree.stateCount, Tree.edges,
      TransitionTable.insertAll_append, ← Nat.add_assoc]
    exact congrArg Except.ok (push_star _ _ rest _)

end Assembly

/-- The postorder of an expression is assembled to the automaton of the
    expression. -/
theorem ofPostfix_postorder (t : Tree) {lexemes : List Lexeme}
    (spelled : lexemes.map (·.token) = t.postorder) : ofPostfix lexemes = .ok t.nfa := by
  have built := Assembly.foldlM_postorder t spelled 0 .empty []
  rw [Nat.zero_add] at built
  have assembled : lexemes.foldlM Assembly.step {} = _ := built
  rw [ofPostfix, assembled]
  rfl

end Nfa

end RegexCompiler
