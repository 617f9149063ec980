import RegexCompiler.Lexeme
import RegexCompiler.CompileError

/-!
Reorders an expression so that every operator follows its operands. Only the balance of the
parentheses is checked here.
-/

namespace RegexCompiler

/-- What has been written so far, and the operators and open parentheses that
    wait, latest first. -/
structure Reordering where
  written : Array Lexeme := #[]
  waiting : List Lexeme := []

namespace Reordering

/-- Writes the waiting operators that bind at least as strongly as the one that
    arrives, which then waits itself. -/
def enqueue (operator : Lexeme) (r : Reordering) : Reordering :=
  let binds (top : Lexeme) : Bool := operator.token.precedence ≤ top.token.precedence
  { written := r.written ++ r.waiting.takeWhile binds
    waiting := operator :: r.waiting.dropWhile binds }

/-- Writes the operators of the innermost open group and closes it. -/
def closeGroup (paren : Lexeme) (r : Reordering) : Except CompileError Reordering :=
  let inside (top : Lexeme) : Bool := top.token ≠ .leftParen
  match r.waiting.dropWhile inside with
  | [] => .error (.malformed paren.position .unmatchedRightParen)
  | _ :: outside =>
    .ok { written := r.written ++ r.waiting.takeWhile inside, waiting := outside }

/-- Takes in the next lexeme of the expression. -/
def step (r : Reordering) (lexeme : Lexeme) : Except CompileError Reordering :=
  match lexeme.token with
  | .literal _ => .ok { r with written := r.written.push lexeme }
  | .leftParen => .ok { r with waiting := lexeme :: r.waiting }
  | .rightParen => r.closeGroup lexeme
  | .concat | .alternation | .star => .ok (r.enqueue lexeme)

/-- An operator writes what waits above the first weaker one. -/
theorem enqueue_cases (operator : Lexeme) (r : Reordering) :
    ∃ pending below : List Lexeme, r.waiting = pending ++ below ∧
      (∀ top ∈ pending, operator.token.precedence ≤ top.token.precedence) ∧
      (∀ top, below.head? = some top → top.token.precedence < operator.token.precedence) ∧
      r.enqueue operator = { written := r.written ++ pending, waiting := operator :: below } := by
  let binds (top : Lexeme) : Bool := operator.token.precedence ≤ top.token.precedence
  refine ⟨r.waiting.takeWhile binds, r.waiting.dropWhile binds, List.takeWhile_append_dropWhile.symm, ?_, ?_, rfl⟩
  · intro top member
    exact of_decide_eq_true (List.all_eq_true.mp List.all_takeWhile top member)
  · intro top first
    have stops := List.head?_dropWhile_not binds r.waiting
    rw [first] at stops
    exact Nat.not_le.mp (of_decide_eq_false stops)

/-- A group that can be closed was opened, and its operators are those that wait
    above. -/
theorem closeGroup_cases {paren : Lexeme} {r after : Reordering} (closed : r.closeGroup paren = .ok after) :
    ∃ (pending : List Lexeme) (opening : Lexeme) (below : List Lexeme),
      r.waiting = pending ++ opening :: below ∧ opening.token = .leftParen ∧
      (∀ top ∈ pending, top.token ≠ .leftParen) ∧
      after = { written := r.written ++ pending, waiting := below } := by
  let inside (top : Lexeme) : Bool := top.token ≠ .leftParen
  have parts : r.waiting.takeWhile inside ++ r.waiting.dropWhile inside = r.waiting := List.takeWhile_append_dropWhile
  have stops := List.head?_dropWhile_not inside r.waiting
  rw [closeGroup] at closed
  cases rest : r.waiting.dropWhile inside with
  | nil =>
    rw [rest] at closed
    cases closed
  | cons opening below =>
    rw [rest] at closed parts stops
    cases closed
    refine ⟨r.waiting.takeWhile inside, opening, below, parts.symm, ?_, ?_, rfl⟩
    · exact Decidable.not_not.mp (of_decide_eq_false stops)
    · intro top member
      exact of_decide_eq_true (List.all_eq_true.mp List.all_takeWhile top member)

theorem step_cases {r after : Reordering} {lexeme : Lexeme} (passed : r.step lexeme = .ok after) :
    (∃ char, lexeme.token = .literal char ∧ after = { r with written := r.written.push lexeme }) ∨
    (lexeme.token = .leftParen ∧ after = { r with waiting := lexeme :: r.waiting }) ∨
    (lexeme.token = .rightParen ∧ r.closeGroup lexeme = .ok after) ∨
    ((lexeme.token = .concat ∨ lexeme.token = .alternation ∨ lexeme.token = .star) ∧
      after = r.enqueue lexeme) := by
  rw [step] at passed
  cases token : lexeme.token with
  | literal char =>
    rw [token] at passed
    cases passed
    exact .inl ⟨char, rfl, rfl⟩
  | leftParen =>
    rw [token] at passed
    cases passed
    exact .inr (.inl ⟨rfl, rfl⟩)
  | rightParen =>
    rw [token] at passed
    exact .inr (.inr (.inl ⟨rfl, passed⟩))
  | concat | alternation | star =>
    rw [token] at passed
    cases passed
    exact .inr (.inr (.inr ⟨by simp, rfl⟩))

/-- Writes all that still waits; a group that is still open is a fault of the
    innermost one. -/
def finish (r : Reordering) : Except CompileError (List Lexeme) :=
  match r.waiting.find? (·.token = .leftParen) with
  | some paren => .error (.malformed paren.position .unmatchedLeftParen)
  | none => .ok (r.written.toList ++ r.waiting)

end Reordering

/-- The postfix order of a sequence of lexemes with explicit concatenations. -/
def toPostfix (lexemes : List Lexeme) : Except CompileError (List Lexeme) := do
  let reordering ← lexemes.foldlM Reordering.step {}
  reordering.finish

/-- The postfix text of an expression. -/
def postfixOf (expression : String) : Except CompileError String :=
  Lexeme.render <$> toPostfix (expand expression)

end RegexCompiler
