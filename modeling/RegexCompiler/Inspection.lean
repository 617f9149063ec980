import RegexCompiler.Alphabet
import RegexCompiler.CompileError
import RegexCompiler.StateSet
import RegexCompiler.Symbol
import RegexCompiler.Text

namespace RegexCompiler

/-- Members in braces, as in `{0, 2}`. -/
def inspectMembers (members : List String) : String :=
  "\x7b" ++ String.intercalate ", " members ++ "\x7d"

/-- The members of a set of states. -/
def StateSet.inspect (states : StateSet) : String :=
  inspectMembers (states.toList.map (·.toNat.repr))

/-- The members of an alphabet, each between quotes. -/
def Alphabet.inspect (alphabet : Alphabet) : String :=
  inspectMembers (alphabet.toList.map Text.quotedChar)

/-- The case of a token. -/
def Token.inspect : Token → String
  | .literal c => "Literal(" ++ Text.quotedChar c ++ ")"
  | .concat => "Concat"
  | .alternation => "Alternation"
  | .star => "Star"
  | .leftParen => "LeftParen"
  | .rightParen => "RightParen"

/-- The case of a symbol. -/
def Symbol.inspect : Symbol → String
  | .literal c => "Literal(" ++ Text.quotedChar c ++ ")"
  | .epsilon => "Epsilon"

/-- The case of a fault. -/
def Fault.inspect : Fault → String
  | .unmatchedLeftParen => "UnmatchedLeftParen"
  | .unmatchedRightParen => "UnmatchedRightParen"
  | .missingOperand operator => "MissingOperand(" ++ operator.inspect ++ ")"
  | .missingOperator => "MissingOperator"

/-- The case of an error with the place and the fault by name. -/
def CompileError.inspect : CompileError → String
  | .emptyExpression => "EmptyExpression"
  | .malformed position fault =>
    "MalformedExpression \x7b position: " ++ position.repr ++ ", kind: " ++ fault.inspect ++ " \x7d"

end RegexCompiler
