import RegexCompiler.Alphabet
import RegexCompiler.Exploration
import RegexCompiler.Assembly
import RegexCompiler.Postfix

namespace RegexCompiler

/-- What an expression is compiled to. -/
structure Compiled where
  nfa : Nfa
  alphabet : Alphabet

/-- The deterministic automaton over the literals of the expression. -/
def Compiled.dfa (compiled : Compiled) : Dfa :=
  compiled.nfa.toDfa compiled.alphabet

/-- Compiles an expression. -/
def compile (expression : String) : Except CompileError Compiled :=
  if expression.isEmpty then .error .emptyExpression
  else do
    let postfixed ← toPostfix (expand expression)
    let nfa ← Nfa.ofPostfix postfixed
    return { nfa, alphabet := Alphabet.ofExpression expression }

/-- The passes find the same error in an expression without characters. -/
theorem compile_eq (expression : String) : compile expression = do
    let postfixed ← toPostfix (expand expression)
    let nfa ← Nfa.ofPostfix postfixed
    return { nfa, alphabet := Alphabet.ofExpression expression } := by
  by_cases empty : expression.isEmpty = true
  · obtain rfl := String.isEmpty_iff.mp empty
    rfl
  · exact if_neg empty

theorem compile_eq_error_iff {expression : String} {error : CompileError} :
    compile expression = .error error ↔ toPostfix (expand expression) = .error error ∨
      ∃ postfixed, toPostfix (expand expression) = .ok postfixed ∧ Nfa.ofPostfix postfixed = .error error := by
  simp only [compile_eq, bind_eq_error_iff, pure_ne_error, and_false, exists_false, or_false]

theorem compile_eq_ok_iff {expression : String} {compiled : Compiled} :
    compile expression = .ok compiled ↔
      ∃ postfixed, toPostfix (expand expression) = .ok postfixed ∧ Nfa.ofPostfix postfixed = .ok compiled.nfa ∧
        Alphabet.ofExpression expression = compiled.alphabet := by
  obtain ⟨nfa, alphabet⟩ := compiled
  simp only [compile_eq, bind_eq_ok_iff, pure_eq_ok_iff, Compiled.mk.injEq]
  constructor
  · rintro ⟨postfixed, reordered, assembly, assembled, rfl, same⟩
    exact ⟨postfixed, reordered, assembled, same⟩
  · rintro ⟨postfixed, reordered, assembled, same⟩
    exact ⟨postfixed, reordered, nfa, assembled, rfl, same⟩

end RegexCompiler
