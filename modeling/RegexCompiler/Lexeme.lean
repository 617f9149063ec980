import RegexCompiler.Token

namespace RegexCompiler

/-- A token and the index of the character it stands at. -/
structure Lexeme where
  token : Token
  position : Nat
deriving DecidableEq, Inhabited

namespace Lexeme

/-- The lexemes of a text, numbered from `start`. -/
def ofChars (start : Nat) : List Char → List Lexeme
  | [] => []
  | c :: rest => ⟨Token.ofChar c, start⟩ :: ofChars (start + 1) rest

/-- The text of a sequence of lexemes, whatever their positions. -/
def render (lexemes : List Lexeme) : String :=
  String.ofList (lexemes.map (·.token.toChar))

theorem map_toChar_ofChars (start : Nat) (chars : List Char) :
    (ofChars start chars).map (·.token.toChar) = chars := by
  induction chars generalizing start with
  | nil => rfl
  | cons c rest ih => simp [ofChars, ih]

theorem getElem?_ofChars (start : Nat) (chars : List Char) (index : Nat) :
    (ofChars start chars)[index]? = chars[index]?.map (⟨Token.ofChar ·, start + index⟩) := by
  induction chars generalizing start index with
  | nil => rfl
  | cons c rest ih =>
    cases index with
    | zero => rfl
    | succ index => rw [ofChars, List.getElem?_cons_succ, List.getElem?_cons_succ, ih, Nat.add_right_comm, Nat.add_assoc]

theorem position_of_mem_ofChars {start index : Nat} {chars : List Char} {lexeme : Lexeme}
    (found : lexeme ∈ (ofChars start chars)[index]?) : lexeme.position = start + index := by
  rw [getElem?_ofChars] at found
  obtain ⟨_, _, rfl⟩ := Option.map_eq_some_iff.mp found
  rfl

end Lexeme

/-- Whether two neighbouring tokens are concatenated without an operator. -/
def Token.juxtaposed (left right : Token) : Bool :=
  left.endsOperand && right.startsOperand

/-- States the concatenations of a sequence that follows the token `previous`. -/
def Lexeme.joinAfter (previous : Option Token) : List Lexeme → List Lexeme
  | [] => []
  | lexeme :: rest =>
    let joined := lexeme :: joinAfter (some lexeme.token) rest
    if previous.any (·.juxtaposed lexeme.token) then
      ⟨.concat, lexeme.position⟩ :: joined
    else joined

/-- The lexemes of an expression with every concatenation explicit. -/
def expand (expression : String) : List Lexeme :=
  Lexeme.joinAfter none (Lexeme.ofChars 0 expression.toList)

end RegexCompiler
