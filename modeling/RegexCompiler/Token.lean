namespace RegexCompiler

/-- A character of an expression by its role. -/
inductive Token where
  | literal (char : Char)
  | concat
  | alternation
  | star
  | leftParen
  | rightParen
deriving DecidableEq, Inhabited

namespace Token

/-- The sign of an explicit concatenation. -/
def concatSign : Char := '·'

/-- Five characters are operators or parentheses, every other one is a literal. -/
def ofChar (c : Char) : Token :=
  if c = '|' then .alternation
  else if c = '*' then .star
  else if c = '(' then .leftParen
  else if c = ')' then .rightParen
  else if c = concatSign then .concat
  else .literal c

/-- The character that a token is written with. -/
def toChar : Token → Char
  | .literal c => c
  | .concat => concatSign
  | .alternation => '|'
  | .star => '*'
  | .leftParen => '('
  | .rightParen => ')'

/-- How strongly a token binds its operands; a parenthesis binds weakest, so
    that no operator reaches across an open group. -/
def precedence : Token → Nat
  | .star => 3
  | .concat => 2
  | .alternation => 1
  | .literal _ | .leftParen | .rightParen => 0

/-- Whether an operand may end with the token. -/
def endsOperand : Token → Bool
  | .literal _ | .rightParen | .star => true
  | _ => false

/-- Whether an operand may start with the token. -/
def startsOperand : Token → Bool
  | .literal _ | .leftParen => true
  | _ => false

/-- Whether the token is a parenthesis of either side. -/
def isParen : Token → Bool
  | .leftParen | .rightParen => true
  | _ => false

/-- The character of a literal. -/
def literal? : Token → Option Char
  | .literal c => some c
  | _ => none

@[simp] theorem toChar_ofChar (c : Char) : (ofChar c).toChar = c := by
  unfold ofChar
  split
  · simp_all [toChar]
  · split
    · simp_all [toChar]
    · split
      · simp_all [toChar]
      · split
        · simp_all [toChar]
        · split
          · simp_all [toChar]
          · rfl

theorem toChar_eq {c : Char} {token : Token} (role : ofChar c = token) : c = token.toChar := by
  rw [← role, toChar_ofChar]

/-- A literal is recognised exactly when its character has no other role. -/
theorem ofChar_eq_literal_iff {c d : Char} :
    ofChar c = .literal d ↔ c = d ∧ c ≠ '|' ∧ c ≠ '*' ∧ c ≠ '(' ∧ c ≠ ')' ∧ c ≠ concatSign := by
  unfold ofChar
  grind

theorem literal?_eq_some_iff {token : Token} {char : Char} : token.literal? = some char ↔ token = .literal char := by
  cases token <;> simp [literal?]

theorem ne_leftParen_of_precedence {token : Token} (binds : 1 ≤ token.precedence) : token ≠ .leftParen := by
  rintro rfl
  cases binds

end Token

end RegexCompiler
