import RegexCompiler.CompileError
import RegexCompiler.Lexeme
import RegexCompiler.Nfa

/-!
Every operand of a postfix expression becomes a fragment of an automaton, and every operator joins the
fragments of its operands by moves that read nothing.
-/

namespace RegexCompiler.Nfa

/-- The number of states handed out so far and the transitions added so far. -/
structure Builder where
  numStates : StateId := 0
  transitions : TransitionTable := ∅

/-- A part of an automaton that reads an operand on its way from `start` to
    `accept`. -/
structure Fragment where
  start : StateId
  accept : StateId
deriving DecidableEq

namespace Builder

/-- Hands out the next state. -/
def newState (builder : Builder) : StateId × Builder :=
  (builder.numStates, { builder with numStates := builder.numStates + 1 })

/-- Adds a transition on a symbol. -/
def connect (builder : Builder) (source : StateId) (symbol : Symbol) (target : StateId) : Builder :=
  { builder with transitions := builder.transitions.insert ⟨source, symbol, target⟩ }

/-- Adds a transition that reads a character. -/
def connectLiteral (builder : Builder) (source : StateId) (char : Char) (target : StateId) : Builder :=
  builder.connect source (.literal char) target

/-- Adds a transition that reads nothing. -/
def connectEpsilon (builder : Builder) (source target : StateId) : Builder :=
  builder.connect source .epsilon target

/-- The automaton with the collected transitions between the given states. -/
def finish (builder : Builder) (start accept : StateId) : Nfa :=
  { numStates := builder.numStates, start, accept, transitions := builder.transitions }

theorem mem_connect {builder : Builder} {source target : StateId} {symbol : Symbol} {transition : Transition} :
    transition ∈ (builder.connect source symbol target).transitions ↔
      transition = ⟨source, symbol, target⟩ ∨ transition ∈ builder.transitions :=
  TransitionTable.mem_insert

/-- Reads one character. -/
def literal (builder : Builder) (char : Char) : Fragment × Builder :=
  let (start, builder) := builder.newState
  let (accept, builder) := builder.newState
  (⟨start, accept⟩, builder.connectLiteral start char accept)

/-- Reads what `first` reads and then what `second` reads. -/
def concat (builder : Builder) (first second : Fragment) : Fragment × Builder :=
  (⟨first.start, second.accept⟩, builder.connectEpsilon first.accept second.start)

/-- Reads what `left` reads or what `right` reads. -/
def alternation (builder : Builder) (left right : Fragment) : Fragment × Builder :=
  let (branch, builder) := builder.newState
  let (join, builder) := builder.newState
  let builder := builder.connectEpsilon branch left.start
  let builder := builder.connectEpsilon branch right.start
  let builder := builder.connectEpsilon left.accept join
  let builder := builder.connectEpsilon right.accept join
  (⟨branch, join⟩, builder)

/-- Reads any number of times what `inner` reads. -/
def star (builder : Builder) (inner : Fragment) : Fragment × Builder :=
  let (start, builder) := builder.newState
  let (accept, builder) := builder.newState
  let builder := builder.connectEpsilon start inner.start
  let builder := builder.connectEpsilon start accept
  let builder := builder.connectEpsilon inner.accept inner.start
  let builder := builder.connectEpsilon inner.accept accept
  (⟨start, accept⟩, builder)

end Builder

/-- The automaton built so far and the fragments that wait for their operator,
    latest first. -/
structure Assembly where
  builder : Builder := {}
  stack : List Fragment := []

namespace Assembly

/-- Puts a new fragment on top of the stack `rest`. -/
def push (rest : List Fragment) (built : Fragment × Builder) : Assembly :=
  { builder := built.2, stack := built.1 :: rest }

/-- Takes in the next lexeme of a postfix expression. -/
def step (assembly : Assembly) (lexeme : Lexeme) : Except CompileError Assembly :=
  let fault (fault : Fault) : Except CompileError Assembly := .error (.malformed lexeme.position fault)
  match lexeme.token, assembly.stack with
  | .literal char, rest => .ok (push rest (assembly.builder.literal char))
  | .concat, second :: first :: rest => .ok (push rest (assembly.builder.concat first second))
  | .alternation, right :: left :: rest => .ok (push rest (assembly.builder.alternation left right))
  | .star, inner :: rest => .ok (push rest (assembly.builder.star inner))
  | .leftParen, _ => fault .unmatchedLeftParen
  | .rightParen, _ => fault .unmatchedRightParen
  | operator, _ => fault (.missingOperand operator)

/-- The automaton of the only fragment that is left; `last` is the position of
    the last lexeme, where an operator is missing if there are more. -/
def finish (assembly : Assembly) (last : Nat) : Except CompileError Nfa :=
  match assembly.stack with
  | [] => .error .emptyExpression
  | [whole] => .ok (assembly.builder.finish whole.start whole.accept)
  | _ => .error (.malformed last .missingOperator)

end Assembly

/-- The automaton of a postfix expression. -/
def ofPostfix (postfixed : List Lexeme) : Except CompileError Nfa := do
  let assembly ← postfixed.foldlM Assembly.step {}
  assembly.finish ((postfixed.getLast?.map (·.position)).getD 0)

end RegexCompiler.Nfa
