import RegexCompiler.CommandLine
import RegexCompiler.Proofs.Faults

namespace RegexCompiler

/-- The error is that of a parenthesis without a partner. -/
def CompileError.IsUnmatched : CompileError → Prop
  | .malformed _ .unmatchedLeftParen | .malformed _ .unmatchedRightParen => True
  | .malformed _ (.missingOperand _) | .malformed _ .missingOperator | .emptyExpression => False

section

variable {expression : String}

theorem postfixOf_of_toPostfix_error {error : CompileError} (failed : toPostfix (expand expression) = .error error) :
    postfixOf expression = .error error ∧ compile expression = .error error := by
  constructor
  · rw [postfixOf, failed]
    rfl
  · exact compile_eq_error_iff.mpr (.inl failed)

theorem exists_postfixOf_error (unbalanced : ¬ Balanced expression.toList) :
    ∃ error : CompileError, error.IsUnmatched ∧ postfixOf expression = .error error ∧
      compile expression = .error error := by
  rcases toPostfix_cases expression with ⟨index, _, failed⟩ | ⟨index, _, _, failed⟩ | ⟨balanced, _⟩
  · exact ⟨.malformed index .unmatchedRightParen, trivial, postfixOf_of_toPostfix_error failed⟩
  · exact ⟨.malformed index .unmatchedLeftParen, trivial, postfixOf_of_toPostfix_error failed⟩
  · exact absurd balanced unbalanced

theorem exists_postfixOf (balanced : Balanced expression.toList) : ∃ postfixed, postfixOf expression = .ok postfixed := by
  obtain ⟨output, reordered⟩ := exists_toPostfix_of_balanced balanced
  exact ⟨Lexeme.render output, by rw [postfixOf, reordered]; rfl⟩

/-- With balanced groups, compiling fails for want of operands. -/
theorem not_isUnmatched_of_balanced {error : CompileError} (balanced : Balanced expression.toList)
    (failed : compile expression = .error error) :
    error = .emptyExpression ∨ ∃ index operator, error = .malformed index (.missingOperand operator) := by
  rcases compile_of_balanced balanced with ⟨_, failed'⟩ | ⟨_, only⟩
  · exact .inl (Except.error.inj (failed.symm.trans failed'))
  · obtain ⟨lexeme, _, _, same⟩ := only error failed
    exact .inr ⟨_, _, same⟩

/-- There is no postfix form exactly when compiling fails at a parenthesis without a
    partner, and the error is the same. -/
theorem postfixOf_eq_error_iff {error : CompileError} :
    postfixOf expression = .error error ↔ compile expression = .error error ∧ error.IsUnmatched := by
  by_cases balanced : Balanced expression.toList
  · obtain ⟨postfixed, shown⟩ := exists_postfixOf balanced
    rw [shown]
    constructor
    · rintro ⟨⟩
    · rintro ⟨failed, unmatched⟩
      rcases not_isUnmatched_of_balanced balanced failed with rfl | ⟨_, _, rfl⟩
      · exact unmatched.elim
      · exact unmatched.elim
  · obtain ⟨error', unmatched, failed, failed'⟩ := exists_postfixOf_error balanced
    rw [failed, failed', Except.error.injEq, Except.error.injEq]
    exact ⟨fun same => ⟨same, same ▸ unmatched⟩, And.left⟩

end

namespace CommandLine

variable {expression postfixed : String} {error : CompileError}

/-! ## Steps of a run -/

theorem convert_of_postfixOf_error (failed : postfixOf expression = .error error) :
    convert expression =
      { exitCode := 1
        output := ""
        errors := "Error: cannot convert " ++ Text.quoted expression ++ " to postfix\n\nCaused by:\n    " ++
          error.message ++ "\n" } := by
  have start : "Error: " ++ "cannot convert " = "Error: cannot convert " := by decide
  have middle : " to postfix" ++ "\n\nCaused by:\n    " = " to postfix\n\nCaused by:\n    " := by decide
  rw [convert, failed, ← start, ← middle]
  simp only [CommandLine.failed, String.append_assoc]

theorem convert_of_compile_error (shown : postfixOf expression = .ok postfixed)
    (failed : compile expression = .error error) :
    convert expression =
      { exitCode := 1
        output := "Postfix expression: " ++ postfixed ++ "\n"
        errors := "Error: cannot compile " ++ Text.quoted expression ++ "\n\nCaused by:\n    " ++ error.message ++ "\n" } := by
  have start : "Error: " ++ "cannot compile " = "Error: cannot compile " := by decide
  rw [convert, shown, failed, ← start]
  simp only [CommandLine.failed, String.append_assoc]

theorem convert_of_compile {compiled : Compiled} (shown : postfixOf expression = .ok postfixed)
    (compiles : compile expression = .ok compiled) :
    convert expression =
      { exitCode := 0
        output := "Postfix expression: " ++ postfixed ++ "\n" ++ compiled.nfa.table ++ "\n" ++ compiled.dfa.table
        errors := "" } := by
  rw [convert, shown, compiles]

/-! ## Whole runs -/

/-- What a run with an expression as its first argument leaves behind. Without
    balanced parentheses it shows nothing and blames one of them. With balanced
    ones it shows the postfix form; if the expression does not compile, it then
    blames an operand that is missing, and otherwise it shows the tables of both
    automata. So the two steps agree on which expressions have a parenthesis
    without a partner. -/
theorem run_outcome (expression : String) (others : List String) (input : List UInt8) :
    (¬ Balanced expression.toList → ∃ error : CompileError, error.IsUnmatched ∧ compile expression = .error error ∧
      run (expression :: others) input =
        { exitCode := 1
          output := ""
          errors := "Error: cannot convert " ++ Text.quoted expression ++ " to postfix\n\nCaused by:\n    " ++
            error.message ++ "\n" }) ∧
    (Balanced expression.toList → ∃ postfixed, postfixOf expression = .ok postfixed ∧
      (∀ error, compile expression = .error error →
        (error = .emptyExpression ∨ ∃ index operator, error = .malformed index (.missingOperand operator)) ∧
        run (expression :: others) input =
          { exitCode := 1
            output := "Postfix expression: " ++ postfixed ++ "\n"
            errors := "Error: cannot compile " ++ Text.quoted expression ++ "\n\nCaused by:\n    " ++
              error.message ++ "\n" }) ∧
      ∀ compiled, compile expression = .ok compiled →
        run (expression :: others) input =
          { exitCode := 0
            output := "Postfix expression: " ++ postfixed ++ "\n" ++ compiled.nfa.table ++ "\n" ++ compiled.dfa.table
            errors := "" }) ∧
    ∀ error, postfixOf expression = .error error ↔ compile expression = .error error ∧ error.IsUnmatched := by
  refine ⟨fun unbalanced => ?_, fun balanced => ?_, fun error => postfixOf_eq_error_iff⟩
  · obtain ⟨error, unmatched, failed, failed'⟩ := exists_postfixOf_error unbalanced
    exact ⟨error, unmatched, failed', convert_of_postfixOf_error failed⟩
  · obtain ⟨postfixed, shown⟩ := exists_postfixOf balanced
    refine ⟨postfixed, shown, fun error failed => ?_, fun compiled compiles => convert_of_compile shown compiles⟩
    exact ⟨not_isUnmatched_of_balanced balanced failed, convert_of_compile_error shown failed⟩

/-- The parenthesis behind a bar hides that the bar misses an operand. -/
theorem run_outcome_bar :
    run ["a|)"] [] =
        { exitCode := 1
          output := ""
          errors := "Error: cannot convert \"a|)\" to postfix\n\nCaused by:\n    " ++
            "malformed expression at position 2: unmatched ')'\n" } ∧
      run ["a|", ")"] [10] =
        { exitCode := 1
          output := "Postfix expression: a|\n"
          errors := "Error: cannot compile \"a|\"\n\nCaused by:\n    " ++
            "malformed expression at position 1: operator '|' is missing an operand\n" } ∧
      ∃ compiled, compile "a" = .ok compiled ∧
        (run ["a"] []).output = "Postfix expression: a\n" ++ compiled.nfa.table ++ "\n" ++ compiled.dfa.table := by
  have unbalanced : ¬ Balanced "a|)".toList := fun balanced => absurd balanced.equal (by decide)
  have bar : Balanced "a|".toList :=
    .append (u := ['a']) (.singleton (by decide) (by decide)) (.singleton (by decide) (by decide))
  have literal : Balanced "a".toList := .singleton (by decide) (by decide)
  refine ⟨?_, ?_, ?_⟩
  · obtain ⟨error, _, failed, shows⟩ := (run_outcome "a|)" [] []).1 unbalanced
    obtain rfl : error = .malformed 2 .unmatchedRightParen := (Except.error.inj failed).symm
    rw [shows, Outcome.mk.injEq]
    exact ⟨rfl, rfl, by decide +kernel⟩
  · obtain ⟨postfixed, shown, failing, _⟩ := (run_outcome "a|" [")"] [10]).2.1 bar
    obtain rfl : postfixed = "a|" := (Except.ok.inj shown).symm
    have failed : compile "a|" = .error (.malformed 1 (.missingOperand .alternation)) := rfl
    rw [(failing _ failed).2, Outcome.mk.injEq]
    exact ⟨rfl, by decide +kernel, by decide +kernel⟩
  · obtain ⟨postfixed, shown, _, passing⟩ := (run_outcome "a" [] []).2.1 literal
    obtain rfl : postfixed = "a" := (Except.ok.inj shown).symm
    refine ⟨_, rfl, ?_⟩
    rw [passing _ rfl]
    rfl

end CommandLine

end RegexCompiler
