import RegexCompiler.Dfa
import RegexCompiler.Nfa

namespace RegexCompiler

/-- The fields of a row with tabs between them. -/
def tableRow (fields : List String) : String :=
  String.intercalate "\t" fields ++ "\n"

/-- The label of a deterministic state. -/
def stateLabel (state : StateId) : String :=
  "S" ++ state.toNat.repr

/-- A row of a nondeterministic automaton. -/
def Nfa.row (entry : (StateId × Symbol) × StateSet) : String :=
  let ((source, symbol), targets) := entry
  tableRow [source.toNat.repr, String.singleton symbol.toChar, targets.render]

/-- The table of a nondeterministic automaton. -/
def Nfa.table (nfa : Nfa) : String :=
  "NFA Transition Table:\n"
    ++ "Start State: " ++ nfa.start.toNat.repr ++ "\n"
    ++ "Accept State: " ++ nfa.accept.toNat.repr ++ "\n"
    ++ tableRow ["State", "Symbol", "Next States"]
    ++ String.join (nfa.transitions.toList.map Nfa.row)

/-- A row of a deterministic automaton; a state that was never added stands for
    nothing, and its field stays empty. -/
def Dfa.row (dfa : Dfa) (entry : (StateId × Char) × StateId) : String :=
  let ((source, char), target) := entry
  let states := ((dfa.states? source).map StateSet.render).getD ""
  tableRow [stateLabel source, states, String.singleton char, stateLabel target]

/-- The table of a deterministic automaton. -/
def Dfa.table (dfa : Dfa) : String :=
  "DFA Transition Table:\n"
    ++ "Start State: " ++ (dfa.start.map stateLabel).getD "none" ++ "\n"
    ++ "Accept States: [" ++ String.intercalate ", " (dfa.finals.toList.map stateLabel) ++ "]\n"
    ++ tableRow ["State", "NFA States", "Symbol", "Next State"]
    ++ String.join (dfa.transitions.toList.map dfa.row)

end RegexCompiler
