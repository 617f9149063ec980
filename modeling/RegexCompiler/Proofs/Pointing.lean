import RegexCompiler.Proofs.Faults

namespace RegexCompiler

/-- A literal or an opening parenthesis stands at the index, right behind a literal,
    a closing parenthesis or a star. -/
def SideBySide (text : List Char) (index : Nat) : Prop :=
  0 < index ∧
    (∃ second, text[index]? = some second ∧ (Token.ofChar second = .literal second ∨ second = '(')) ∧
    ∃ first, text[index - 1]? = some first ∧ (Token.ofChar first = .literal first ∨ first = ')' ∨ first = '*')

/-- The character at the index is the one that the fault is about. A concatenation
    without a sign stands where its second operand starts. -/
def Fault.PointsAt (text : List Char) (index : Nat) : Fault → Prop
  | .unmatchedRightParen => text[index]? = some ')'
  | .unmatchedLeftParen => text[index]? = some '('
  | .missingOperand .alternation => text[index]? = some '|'
  | .missingOperand .star => text[index]? = some '*'
  | .missingOperand .concat => text[index]? = some '·' ∨ SideBySide text index
  | .missingOperand (.literal _) | .missingOperand .leftParen | .missingOperand .rightParen => False
  | .missingOperator => False

theorem Fault.PointsAt.lt_length {text : List Char} {index : Nat} {fault : Fault} (points : fault.PointsAt text index) :
    index < text.length := by
  have inside {c : Char} (found : text[index]? = some c) : index < text.length :=
    (List.getElem?_eq_some_iff.mp found).1
  cases fault with
  | unmatchedRightParen | unmatchedLeftParen => exact inside points
  | missingOperator => exact points.elim
  | missingOperand operator =>
    cases operator with
    | alternation | star => exact inside points
    | literal | leftParen | rightParen => exact points.elim
    | concat =>
      rcases points with sign | ⟨_, ⟨_, second, _⟩, _⟩
      · exact inside sign
      · exact inside second

/-! ## Operators at their places -/

theorem Token.ofChar_of_startsOperand {c : Char} (starts : (ofChar c).startsOperand = true) :
    ofChar c = .literal c ∨ c = '(' := by
  cases role : ofChar c with
  | literal char =>
    obtain rfl : c = char := toChar_eq role
    exact .inl rfl
  | leftParen => exact .inr (toChar_eq role)
  | concat | alternation | star | rightParen =>
    rw [role] at starts
    cases starts

theorem Token.ofChar_of_endsOperand {c : Char} (ends : (ofChar c).endsOperand = true) :
    ofChar c = .literal c ∨ c = ')' ∨ c = '*' := by
  cases role : ofChar c with
  | literal char =>
    obtain rfl : c = char := toChar_eq role
    exact .inl rfl
  | rightParen => exact .inr (.inl (toChar_eq role))
  | star => exact .inr (.inr (toChar_eq role))
  | concat | alternation | leftParen =>
    rw [role] at ends
    cases ends

namespace Lexeme.StandsIn

variable {text : List Char} {lexeme : Lexeme}

/-- A lexeme that is not a stated concatenation stands at its own character. -/
theorem getElem?_or_sideBySide (stands : lexeme.StandsIn text) :
    text[lexeme.position]? = some lexeme.token.toChar ∨ lexeme.token = .concat ∧ SideBySide text lexeme.position := by
  rcases stands with own | ⟨isConcat, index, first, second, place, left, right, beside⟩
  · obtain ⟨c, found, role⟩ := Option.map_eq_some_iff.mp own
    rw [found, Token.toChar_eq role]
    exact .inl rfl
  · rw [Token.juxtaposed, Bool.and_eq_true] at beside
    refine .inr ⟨isConcat, by omega, ⟨second, ?_, Token.ofChar_of_startsOperand beside.2⟩,
      first, ?_, Token.ofChar_of_endsOperand beside.1⟩
    · rw [place]
      exact right
    · rw [place]
      exact left

theorem pointsAt (stands : lexeme.StandsIn text) (isOperator : 1 ≤ lexeme.token.precedence) :
    (Fault.missingOperand lexeme.token).PointsAt text lexeme.position := by
  have places := stands.getElem?_or_sideBySide
  cases token : lexeme.token with
  | concat =>
    rw [token] at places
    exact places.imp id And.right
  | alternation | star =>
    rw [token] at places
    exact places.resolve_right fun stated => by cases stated.1
  | literal | leftParen | rightParen =>
    rw [token] at isOperator
    cases isOperator

end Lexeme.StandsIn

/-! ## Errors -/

/-- An error of an expression points at the character of the text that is to blame:
    the parenthesis without a partner, or the operator that misses an operand, which
    for a concatenation without a sign is where its second operand starts. -/
theorem compile_error_points {expression : String} {index : Nat} {fault : Fault}
    (failed : compile expression = .error (.malformed index fault)) :
    index < expression.length ∧ fault.PointsAt expression.toList index := by
  have points : fault.PointsAt expression.toList index := by
    rcases compile_cases expression with ⟨_, first, failed'⟩ | ⟨_, _, last, failed'⟩ | ⟨_, failed'⟩ | ⟨_, _, only⟩
    · cases failed.symm.trans failed'
      exact first.closes
    · cases failed.symm.trans failed'
      exact last.1.1
    · cases failed.symm.trans failed'
    · obtain ⟨lexeme, stands, isOperator, same⟩ := only _ failed
      cases same
      exact stands.pointsAt isOperator
  rw [← String.length_toList]
  exact ⟨points.lt_length, points⟩

/-- The concatenation of an empty group with the literal behind it. -/
theorem compile_error_points_unit :
    compile "()a" = .error (.malformed 2 (.missingOperand .concat)) ∧ 2 < "()a".length ∧ SideBySide "()a".toList 2 := by
  have failed : compile "()a" = .error (.malformed 2 (.missingOperand .concat)) := rfl
  obtain ⟨inside, sign | beside⟩ := compile_error_points failed
  · cases sign
  · exact ⟨failed, inside, beside⟩

end RegexCompiler
