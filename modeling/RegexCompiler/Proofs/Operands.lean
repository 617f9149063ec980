import RegexCompiler.Proofs.Counting
import RegexCompiler.Proofs.Decoding

/-!
What the assembly makes of any sequence of lexemes. As long as it is not stuck, the fragments on its stack
stand for trees, whose postorders are together what was read.
-/

namespace RegexCompiler

namespace Token

/-- How many operands an operator takes. -/
def arity? : Token → Option Nat
  | .concat | .alternation => some 2
  | .star => some 1
  | .literal _ | .leftParen | .rightParen => none

/-- What is wrong where the token cannot be taken in. -/
def fault : Token → Fault
  | .leftParen => .unmatchedLeftParen
  | .rightParen => .unmatchedRightParen
  | operator => .missingOperand operator

/-- Behind `depth` operands no parenthesis can be taken in, and no operator that
    takes more of them. -/
def Stuck (depth : Int) (token : Token) : Prop :=
  token.isParen = true ∨ ∃ arity ∈ token.arity?, depth < arity

instance (depth : Int) (token : Token) : Decidable (token.Stuck depth) :=
  inferInstanceAs (Decidable (_ ∨ _))

end Token

/-- The assembly cannot take in the lexeme at the index, if it gets there. -/
def StuckAt (lexemes : List Lexeme) (index : Nat) : Prop :=
  ∃ lexeme ∈ lexemes[index]?, lexeme.token.Stuck (surplusOf (lexemes.take index))

instance (lexemes : List Lexeme) (index : Nat) : Decidable (StuckAt lexemes index) :=
  inferInstanceAs (Decidable (∃ lexeme ∈ lexemes[index]?, _))

/-- The index is that of the first lexeme that cannot be taken in. -/
def FirstStuck (lexemes : List Lexeme) (index : Nat) : Prop :=
  StuckAt lexemes index ∧ ∀ other, StuckAt lexemes other → index ≤ other

theorem StuckAt.lt_length {lexemes : List Lexeme} {index : Nat} (stuck : StuckAt lexemes index) :
    index < lexemes.length := by
  obtain ⟨_, found, _⟩ := stuck
  exact (List.getElem?_eq_some_iff.mp found).1

theorem stuckAt_append_iff {before after : List Lexeme} {index : Nat} (inside : index < before.length) :
    StuckAt (before ++ after) index ↔ StuckAt before index := by
  rw [StuckAt, StuckAt, List.getElem?_append_left inside, List.take_append_of_le_length (Nat.le_of_lt inside)]

/-! ## Steps -/

namespace Nfa.Assembly

theorem step_eq_error_iff {assembly : Assembly} {lexeme : Lexeme} {error : CompileError} :
    assembly.step lexeme = .error error ↔
      lexeme.token.Stuck assembly.stack.length ∧ error = .malformed lexeme.position lexeme.token.fault := by
  obtain ⟨builder, stack⟩ := assembly
  cases token : lexeme.token with
  | literal char => simp [step, token, Token.Stuck, Token.isParen, Token.arity?]
  | leftParen | rightParen => simp [step, token, Token.Stuck, Token.isParen, Token.fault, eq_comm]
  | star =>
    rcases stack with _ | ⟨inner, rest⟩
    · simp [step, token, Token.Stuck, Token.isParen, Token.arity?, Token.fault, eq_comm]
    · simp [step, token, Token.Stuck, Token.isParen, Token.arity?]
  | concat | alternation =>
    rcases stack with _ | ⟨second, _ | ⟨first, rest⟩⟩
    · simp [step, token, Token.Stuck, Token.isParen, Token.arity?, Token.fault, eq_comm]
    · simp [step, token, Token.Stuck, Token.isParen, Token.arity?, Token.fault, eq_comm]
    · simp [step, token, Token.Stuck, Token.isParen, Token.arity?]

theorem step_of_stuck {assembly : Assembly} {lexeme : Lexeme} (stuck : lexeme.token.Stuck assembly.stack.length) :
    assembly.step lexeme = .error (.malformed lexeme.position lexeme.token.fault) :=
  step_eq_error_iff.mpr ⟨stuck, rfl⟩

theorem exists_step {assembly : Assembly} {lexeme : Lexeme} (free : ¬ lexeme.token.Stuck assembly.stack.length) :
    ∃ after, assembly.step lexeme = .ok after := by
  cases result : assembly.step lexeme with
  | error error => exact absurd (step_eq_error_iff.mp result).1 free
  | ok after => exact ⟨after, rfl⟩

theorem not_stuck_of_step {assembly after : Assembly} {lexeme : Lexeme} (passed : assembly.step lexeme = .ok after) :
    ¬ lexeme.token.Stuck assembly.stack.length := by
  intro stuck
  cases passed.symm.trans (step_of_stuck stuck)

/-! ## Runs -/

theorem length_stack {lexemes : List Lexeme} {after : Assembly} (passed : lexemes.foldlM step {} = .ok after) :
    (after.stack.length : Int) = surplusOf lexemes := by
  have total := foldlM_counts passed
  rwa [List.length_nil, Int.natCast_zero, Int.zero_add] at total

/-- A sequence is taken in as a whole unless the assembly gets stuck somewhere. -/
theorem exists_foldlM {lexemes : List Lexeme} (free : ∀ index, ¬ StuckAt lexemes index) :
    ∃ after, lexemes.foldlM step {} = .ok after := by
  induction lexemes using List.reverseRecOn with
  | nil => exact ⟨{}, rfl⟩
  | append_singleton before lexeme ih =>
    have freeBefore (index : Nat) : ¬ StuckAt before index := by
      intro stuck
      exact free index ((stuckAt_append_iff stuck.lt_length).mpr stuck)
    obtain ⟨between, passed⟩ := ih freeBefore
    have freeHere : ¬ lexeme.token.Stuck between.stack.length := by
      intro stuck
      refine free before.length ⟨lexeme, List.getElem?_concat_length, ?_⟩
      rwa [List.take_left, ← length_stack passed]
    obtain ⟨after, last⟩ := exists_step freeHere
    exact ⟨after, by rw [foldlM_append_of_ok passed, foldlM_cons_of_ok last]; rfl⟩

end Nfa.Assembly

/-! ## Trees on the stack -/

namespace PlacedTree

/-- The lexemes of the trees on a stack, those of the lowest one first. -/
def listed (stack : List PlacedTree) : List Lexeme :=
  stack.reverse.flatMap postorder

theorem listed_cons (top : PlacedTree) (rest : List PlacedTree) : listed (top :: rest) = listed rest ++ top.postorder := by
  simp [listed]

theorem listed_replay {stack : List PlacedTree} {lexeme : Lexeme} (free : ¬ lexeme.token.Stuck stack.length) :
    listed (replay stack lexeme) = listed stack ++ [lexeme] ∧
      ((replay stack lexeme).length : Int) = stack.length + lexeme.token.surplus := by
  obtain ⟨token, position⟩ := lexeme
  cases token with
  | literal char => exact ⟨listed_cons _ _, rfl⟩
  | leftParen | rightParen => exact absurd (.inl rfl) free
  | star =>
    rcases stack with _ | ⟨inner, rest⟩
    · exact absurd (.inr ⟨1, rfl, by simp⟩) free
    · refine ⟨?_, (Int.add_zero _).symm⟩
      rw [listed_cons, List.append_assoc]
      exact listed_cons _ rest
  | concat | alternation =>
    rcases stack with _ | ⟨second, _ | ⟨first, rest⟩⟩
    · exact absurd (.inr ⟨2, rfl, by simp⟩) free
    · exact absurd (.inr ⟨2, rfl, by simp⟩) free
    · refine ⟨?_, ?_⟩
      · rw [listed_cons, listed_cons, List.append_assoc, List.append_assoc, ← List.append_assoc first.postorder]
        exact listed_cons _ rest
      · change ((rest.length + 1 : Nat) : Int) = ((rest.length + 1 + 1 : Nat) : Int) + -1
        omega

end PlacedTree

namespace Nfa

open Assembly

/-- Along an assembly, the trees on the stack list what was read. -/
theorem Assembly.listed_foldl_replay {lexemes : List Lexeme} {assembly after : Assembly}
    (passed : lexemes.foldlM step assembly = .ok after) (stack : List PlacedTree)
    (matching : stack.length = assembly.stack.length) :
    PlacedTree.listed (lexemes.foldl PlacedTree.replay stack) = PlacedTree.listed stack ++ lexemes ∧
      (lexemes.foldl PlacedTree.replay stack).length = after.stack.length := by
  induction lexemes generalizing assembly stack with
  | nil =>
    cases passed
    exact ⟨(List.append_nil _).symm, matching⟩
  | cons lexeme rest ih =>
    obtain ⟨between, first, others⟩ := foldlM_cons_eq_ok_iff.mp passed
    have free := not_stuck_of_step first
    rw [← matching] at free
    obtain ⟨here, grown⟩ := PlacedTree.listed_replay free
    have counted := step_counts first
    obtain ⟨later, total⟩ := ih others (PlacedTree.replay stack lexeme) (by omega)
    refine ⟨?_, total⟩
    rw [List.foldl_cons, later, here, List.append_assoc, List.singleton_append]

theorem Assembly.eq_nil_of_stack_eq_nil {lexemes : List Lexeme} {after : Assembly}
    (passed : lexemes.foldlM step {} = .ok after) (empty : after.stack = []) : lexemes = [] := by
  obtain ⟨read, total⟩ := listed_foldl_replay passed [] rfl
  rw [empty, List.length_nil, List.length_eq_zero_iff] at total
  rw [total] at read
  exact read.symm

theorem exists_postorder_of_ofPostfix {lexemes : List Lexeme} {nfa : Nfa} (assembled : ofPostfix lexemes = .ok nfa) :
    ∃ t : PlacedTree, t.postorder = lexemes := by
  obtain ⟨after, passed, finished⟩ := bind_eq_ok_iff.mp assembled
  obtain ⟨read, total⟩ := listed_foldl_replay passed [] rfl
  rw [finish_counts finished] at total
  obtain ⟨t, only⟩ := List.length_eq_one_iff.mp total
  rw [only, PlacedTree.listed_cons] at read
  exact ⟨t, read⟩

/-! ## Outcomes -/

section

variable {lexemes : List Lexeme}

theorem exists_ofPostfix_iff :
    (∃ nfa, ofPostfix lexemes = .ok nfa) ↔ ∃ t : Tree, lexemes.map (·.token) = t.postorder := by
  constructor
  · rintro ⟨nfa, assembled⟩
    obtain ⟨t, rfl⟩ := exists_postorder_of_ofPostfix assembled
    exact ⟨t.tree, t.map_token_postorder⟩
  · rintro ⟨t, spelled⟩
    exact ⟨t.nfa, ofPostfix_postorder t spelled⟩

/-- Where the assembly gets stuck, all that follows is not looked at. -/
theorem ofPostfix_of_firstStuck {index : Nat} {lexeme : Lexeme} (first : FirstStuck lexemes index)
    (found : lexemes[index]? = some lexeme) (rest : List Lexeme) :
    ofPostfix (lexemes.take (index + 1) ++ rest) = .error (.malformed lexeme.position lexeme.token.fault) := by
  obtain ⟨⟨_, found', stuck⟩, least⟩ := first
  obtain rfl := Option.some.inj (found'.symm.trans found)
  have free (other : Nat) : ¬ StuckAt (lexemes.take index) other := by
    intro stuckThere
    have before := stuckThere.lt_length
    rw [List.length_take] at before
    refine Nat.not_le.mpr (Nat.lt_of_lt_of_le before (Nat.min_le_left _ _)) (least other ?_)
    rw [← List.take_append_drop index lexemes]
    exact (stuckAt_append_iff stuckThere.lt_length).mpr stuckThere
  obtain ⟨between, passed⟩ := exists_foldlM free
  rw [← length_stack passed] at stuck
  rw [ofPostfix, List.take_add_one, found, List.append_assoc, foldlM_append_of_ok passed, bind_eq_error_iff]
  refine .inl ?_
  rw [Option.toList_some, List.singleton_append, List.foldlM_cons, bind_eq_error_iff]
  exact .inl (step_of_stuck stuck)

/-- A sequence that does not get stuck leaves any number of fragments. -/
theorem ofPostfix_of_free (free : ∀ index, ¬ StuckAt lexemes index) :
    (∃ nfa, ofPostfix lexemes = .ok nfa) ∨ (lexemes = [] ∧ ofPostfix lexemes = .error .emptyExpression) ∨
      ∃ last, lexemes.getLast? = some last ∧ ofPostfix lexemes = .error (.malformed last.position .missingOperator) := by
  obtain ⟨⟨builder, stack⟩, passed⟩ := exists_foldlM free
  rcases stack with _ | ⟨whole, _ | ⟨other, rest⟩⟩
  · obtain rfl := eq_nil_of_stack_eq_nil passed rfl
    exact .inr (.inl ⟨rfl, rfl⟩)
  · exact .inl ⟨_, bind_eq_ok_iff.mpr ⟨_, passed, rfl⟩⟩
  · rcases List.eq_nil_or_concat lexemes with rfl | ⟨front, last, rfl⟩
    · cases passed
    · refine .inr (.inr ⟨last, by simp, bind_eq_error_iff.mpr (.inr ⟨_, passed, ?_⟩)⟩)
      simp [finish]

end

/-- The outcome of the assembly for any sequence: an automaton exactly for a
    postorder; the fault of the first lexeme where it gets stuck, whatever
    follows; and without one, too many operands or none at all. -/
theorem ofPostfix_outcome (lexemes : List Lexeme) :
    ((∃ nfa, ofPostfix lexemes = .ok nfa) ↔ ∃ t : Tree, lexemes.map (·.token) = t.postorder) ∧
    (∀ index lexeme, FirstStuck lexemes index → lexemes[index]? = some lexeme →
      ∀ other : List Lexeme, other.take (index + 1) = lexemes.take (index + 1) →
        ofPostfix other = .error (.malformed lexeme.position lexeme.token.fault)) ∧
    ((¬ ∃ t : Tree, lexemes.map (·.token) = t.postorder) → (∀ index, ¬ StuckAt lexemes index) →
      (lexemes = [] → ofPostfix lexemes = .error .emptyExpression) ∧
      ∀ last, lexemes.getLast? = some last →
        ofPostfix lexemes = .error (.malformed last.position .missingOperator)) := by
  refine ⟨exists_ofPostfix_iff, fun index lexeme first found other same => ?_, fun noTree free => ?_⟩
  · rw [← List.take_append_drop (index + 1) other, same]
    exact ofPostfix_of_firstStuck first found _
  · rcases ofPostfix_of_free free with assembled | ⟨rfl, failed⟩ | ⟨last, isLast, failed⟩
    · exact absurd (exists_ofPostfix_iff.mp assembled) noTree
    · exact ⟨fun _ => failed, by simp⟩
    · refine ⟨?_, fun last' isLast' => ?_⟩
      · rintro rfl
        cases isLast
      · rw [failed, Option.some.inj (isLast.symm.trans isLast')]

/-- An alternation that misses an operand hides the parenthesis behind it, and two
    operands alone miss their operator at the last one. -/
theorem ofPostfix_outcome_hidden :
    ofPostfix [⟨.literal 'a', 4⟩, ⟨.star, 2⟩, ⟨.alternation, 7⟩, ⟨.leftParen, 0⟩] =
        .error (.malformed 7 (.missingOperand .alternation)) ∧
      ofPostfix [⟨.literal 'a', 3⟩, ⟨.literal '*', 1⟩] = .error (.malformed 1 .missingOperator) := by
  constructor
  · refine (ofPostfix_outcome _).2.1 2 ⟨.alternation, 7⟩ ⟨by decide, fun other stuck => ?_⟩ rfl _ rfl
    by_contra earlier
    exact absurd stuck ((by decide : ∀ other < 2, ¬ StuckAt _ other) other (Nat.not_le.mp earlier))
  · refine ((ofPostfix_outcome _).2.2 ?_ fun index stuck => ?_).2 ⟨.literal '*', 1⟩ rfl
    · rintro ⟨t, spelled⟩
      have last := congrArg List.getLast? spelled
      cases t with
      | literal char => cases spelled
      | concat | alternation | star => simp [Tree.postorder] at last
    · exact (by decide : ∀ index < 2, ¬ StuckAt _ index) index stuck.lt_length stuck

end Nfa

end RegexCompiler
