import RegexCompiler.Compile
import RegexCompiler.Report
import RegexCompiler.Text

namespace RegexCompiler.CommandLine

/-- What a run leaves behind. -/
structure Outcome where
  exitCode : UInt32 := 0
  output : String := ""
  errors : String := ""
deriving DecidableEq

/-- Asks for an expression. -/
def prompt : String := "Enter regular expression: "

/-- A run that stops after some output, with what failed and why. The layout is that of
    the report that the `anyhow` library prints for an error with one cause. -/
def failed (output context cause : String) : Outcome :=
  { exitCode := 1, output, errors := "Error: " ++ context ++ "\n\nCaused by:\n    " ++ cause ++ "\n" }

/-- Shows the postfix form and the tables of an expression. -/
def convert (expression : String) : Outcome :=
  match postfixOf expression with
  | .error error => failed "" ("cannot convert " ++ Text.quoted expression ++ " to postfix") error.message
  | .ok postfixed =>
    let shown := "Postfix expression: " ++ postfixed ++ "\n"
    match compile expression with
    | .error error => failed shown ("cannot compile " ++ Text.quoted expression) error.message
    | .ok compiled => { output := shown ++ compiled.nfa.table ++ "\n" ++ compiled.dfa.table }

/-- The bytes before the first line feed. -/
def firstLine (input : List UInt8) : List UInt8 :=
  input.takeWhile (· ≠ 10)

/-- Shows the expression on the first line of the input, less the blanks around
    it. -/
def convertInput (input : List UInt8) : Outcome :=
  match String.fromUTF8? (firstLine input).toByteArray with
  | none =>
    failed "" "failed to read regular expression from stdin" "stream did not contain valid UTF-8"
  | some line => convert (String.ofList (Text.trimBlank line.toList))

/-- How a run begins: it is over, or it asks for the input that it depends on. -/
inductive Response where
  | done (outcome : Outcome)
  | ask (question : String) (answer : List UInt8 → Outcome)

/-- The first argument is the expression. Without arguments one is asked for. -/
def respond : List String → Response
  | expression :: _ => .done (convert expression)
  | [] => .ask prompt convertInput

/-- The whole run with the given arguments and input. -/
def run (arguments : List String) (input : List UInt8) : Outcome :=
  match respond arguments with
  | .done outcome => outcome
  | .ask question answer =>
    let outcome := answer input
    { outcome with output := question ++ outcome.output }

end RegexCompiler.CommandLine
