import RegexCompiler.Proofs.Operands
import RegexCompiler.Proofs.Scanning

/-!
The error of an expression can be read off its text (`compile_error_iff`). Faults of groups come before all
others.
-/

namespace RegexCompiler

/-! ## Groups -/

theorem scan_joinAfter (previous : Option Token) (lexemes : List Lexeme) (opened : List Nat) :
    (Lexeme.joinAfter previous lexemes).foldlM scan opened = lexemes.foldlM scan opened := by
  induction lexemes generalizing previous opened with
  | nil => rfl
  | cons lexeme rest ih =>
    have own : (lexeme :: Lexeme.joinAfter (some lexeme.token) rest).foldlM scan opened =
        (lexeme :: rest).foldlM scan opened := by
      simp only [List.foldlM_cons, ih]
    rw [Lexeme.joinAfter]
    split
    · exact own
    · exact own

theorem checkGroups_expand (expression : String) :
    checkGroups (expand expression) = checkGroups (Lexeme.ofChars 0 expression.toList) := by
  rw [checkGroups, checkGroups, expand, scan_joinAfter]

theorem outlines_ofChars (start : Nat) (text : List Char) : Outlines text (Lexeme.ofChars start text) := by
  induction text generalizing start with
  | nil => exact .nil
  | cons c rest ih =>
    refine .cons ⟨⟨?_, Token.toChar_eq⟩, ⟨?_, Token.toChar_eq⟩⟩ (ih (start + 1))
    · rintro rfl
      rfl
    · rintro rfl
      rfl

/-- What reordering makes of an expression: the faults of its groups, or a postfix
    form if the groups are balanced. -/
theorem toPostfix_cases (expression : String) :
    (∃ index, FirstExcess expression.toList index ∧
      toPostfix (expand expression) = .error (.malformed index .unmatchedRightParen)) ∨
    (∃ index, NeverExcess expression.toList ∧ LastUnclosed expression.toList index ∧
      toPostfix (expand expression) = .error (.malformed index .unmatchedLeftParen)) ∨
    (Balanced expression.toList ∧ ∃ output, toPostfix (expand expression) = .ok output) := by
  have checked := checkGroups_cases (outlines_ofChars 0 expression.toList) id fun index lexeme found => by
    simpa using (Lexeme.position_of_mem_ofChars found).symm
  rw [← checkGroups_expand] at checked
  rcases checked with ⟨index, first, failed⟩ | ⟨index, never, last, failed⟩ | ⟨balanced, passed⟩
  · exact .inl ⟨index, first, toPostfix_of_checkGroups_error failed⟩
  · exact .inr (.inl ⟨index, never, last, toPostfix_of_checkGroups_error failed⟩)
  · exact .inr (.inr ⟨balanced, exists_toPostfix_of_checkGroups passed⟩)

theorem exists_toPostfix_of_balanced {expression : String} (balanced : Balanced expression.toList) :
    ∃ output, toPostfix (expand expression) = .ok output := by
  rcases toPostfix_cases expression with ⟨index, first, _⟩ | ⟨index, _, last, _⟩ | ⟨_, reordered⟩
  · exact absurd first.1 (neverExcess_iff.mp balanced.never index)
  · exact absurd last.1 (balanced.not_unclosedAt index)
  · exact reordered

/-! ## Operands -/

namespace Nfa.Assembly

theorem step_error {assembly : Assembly} {lexeme : Lexeme} {error : CompileError} (keeps : lexeme.isKept = true)
    (failed : assembly.step lexeme = .error error) :
    1 ≤ lexeme.token.precedence ∧ error = .malformed lexeme.position (.missingOperand lexeme.token) := by
  obtain ⟨stuck, rfl⟩ := step_eq_error_iff.mp failed
  cases token : lexeme.token with
  | leftParen | rightParen => simp [Lexeme.isKept, token, Token.isParen] at keeps
  | literal => simp [Token.Stuck, token, Token.isParen, Token.arity?] at stuck
  | concat | alternation | star => exact ⟨by decide, rfl⟩

theorem foldlM_error {lexemes : List Lexeme} {assembly : Assembly} {error : CompileError}
    (keeps : ∀ lexeme ∈ lexemes, lexeme.isKept = true) (failed : lexemes.foldlM step assembly = .error error) :
    ∃ lexeme ∈ lexemes, 1 ≤ lexeme.token.precedence ∧
      error = .malformed lexeme.position (.missingOperand lexeme.token) := by
  induction lexemes generalizing assembly with
  | nil => cases failed
  | cons lexeme rest ih =>
    rw [List.foldlM_cons, bind_eq_error_iff] at failed
    rcases failed with first | ⟨between, _, later⟩
    · exact ⟨lexeme, .head _, step_error (keeps lexeme (.head _)) first⟩
    · obtain ⟨operator, member, misses⟩ := ih (fun other member => keeps other (.tail _ member)) later
      exact ⟨operator, .tail _ member, misses⟩

end Nfa.Assembly

/-- With no more operands than operators join, a postfix expression that is not
    empty can only miss an operand. -/
theorem Nfa.missingOperand_of_ofPostfix {lexemes : List Lexeme} {error : CompileError}
    (keeps : ∀ lexeme ∈ lexemes, lexeme.isKept = true) (few : surplusOf lexemes ≤ 1) (nonempty : lexemes ≠ [])
    (failed : ofPostfix lexemes = .error error) :
    ∃ lexeme ∈ lexemes, 1 ≤ lexeme.token.precedence ∧
      error = .malformed lexeme.position (.missingOperand lexeme.token) := by
  rcases bind_eq_error_iff.mp failed with assembling | ⟨assembly, assembled, finishing⟩
  · exact Assembly.foldlM_error keeps assembling
  · have occupied : assembly.stack ≠ [] := fun empty => nonempty (Assembly.eq_nil_of_stack_eq_nil assembled empty)
    have total := Assembly.length_stack assembled
    have positive := List.length_pos_iff.mpr occupied
    have single : assembly.stack.length = 1 := by omega
    obtain ⟨whole, only⟩ := List.length_eq_one_iff.mp single
    rw [Assembly.finish, only] at finishing
    cases finishing

theorem surplusOf_expand_le (expression : String) : surplusOf (expand expression) ≤ 1 := by
  rw [surplusOf_expand]
  omega

/-! ## Expressions without operands and operators -/

open Lexeme (expandAfter)

/-- Only parentheses are left out, and an opening one behind a closing one would
    be joined to it. -/
theorem exists_replicate_of_filter_expandAfter {previous : Option Token} {start : Nat} {text : List Char}
    (none : (expandAfter previous start text).filter Lexeme.isKept = []) :
    ∃ n m, text = List.replicate n '(' ++ List.replicate m ')' ∧ (previous.any (·.endsOperand) = true → n = 0) := by
  induction text generalizing previous start with
  | nil => exact ⟨0, 0, rfl, fun _ => rfl⟩
  | cons c rest ih =>
    have own : (⟨Token.ofChar c, start⟩ :: expandAfter (some (Token.ofChar c)) (start + 1) rest).filter
        Lexeme.isKept = [] := by
      rw [Lexeme.expandAfter_cons, List.filter_append] at none
      exact (List.append_eq_nil_iff.mp none).2
    cases role : Token.ofChar c with
    | leftParen =>
      rw [role] at own
      obtain rfl : c = '(' := Token.toChar_eq role
      obtain ⟨n, m, rfl, _⟩ := ih own
      refine ⟨n + 1, m, rfl, fun ends => ?_⟩
      rw [Lexeme.expandAfter_juxtaposed ends rfl] at none
      cases none
    | rightParen =>
      rw [role] at own
      obtain rfl : c = ')' := Token.toChar_eq role
      obtain ⟨n, m, rfl, noOpening⟩ := ih own
      obtain rfl := noOpening rfl
      exact ⟨0, m + 1, rfl, fun _ => rfl⟩
    | literal _ | concat | alternation | star =>
      rw [role] at own
      cases own

theorem filter_expandAfter_replicate (n m start : Nat) :
    (expandAfter none start (List.replicate n '(' ++ List.replicate m ')')).filter Lexeme.isKept = [] := by
  have closing (previous : Option Token) (start : Nat) :
      (expandAfter previous start (List.replicate m ')')).filter Lexeme.isKept = [] := by
    induction m generalizing previous start with
    | zero => rfl
    | succ m ih =>
      rw [List.replicate_succ, Lexeme.expandAfter_operator rfl]
      exact ih _ _
  induction n generalizing start with
  | zero => exact closing none start
  | succ n ih =>
    rw [List.replicate_succ, List.cons_append, Lexeme.expandAfter_cons, Lexeme.expandAfter_some rfl]
    exact ih _

/-- Nothing is left of a balanced expression where it is written with opening and
    then as many closing parentheses. -/
theorem filter_expand_eq_nil_iff {expression : String} (balanced : Balanced expression.toList) :
    (expand expression).filter Lexeme.isKept = [] ↔
      ∃ n, expression.toList = List.replicate n '(' ++ List.replicate n ')' := by
  constructor
  · intro none
    obtain ⟨n, m, written, _⟩ := exists_replicate_of_filter_expandAfter none
    have equal := balanced.equal
    have same : m = n := by simpa [written, List.count_replicate] using equal
    exact ⟨n, by rw [written, same]⟩
  · rintro ⟨n, written⟩
    rw [expand, written]
    exact filter_expandAfter_replicate n n 0

/-! ## Compiling -/

/-- Where reordering leaves something to assemble, only an operator can fail. -/
theorem exists_operator_of_compile {expression : String} {output : List Lexeme} {error : CompileError}
    (reordered : toPostfix (expand expression) = .ok output) (nonempty : output ≠ [])
    (failed : compile expression = .error error) :
    ∃ lexeme ∈ output, 1 ≤ lexeme.token.precedence ∧
      error = .malformed lexeme.position (.missingOperand lexeme.token) := by
  have keeps : ∀ lexeme ∈ output, lexeme.isKept = true := fun lexeme member =>
    (List.mem_filter.mp ((toPostfix_perm reordered).mem_iff.mp member)).2
  have few : surplusOf output ≤ 1 := by
    rw [(counts_of_toPostfix reordered).1]
    exact surplusOf_expand_le expression
  rw [compile_eq_error_iff, reordered] at failed
  obtain ⟨⟨⟩⟩ | ⟨_, ⟨⟩, unassembled⟩ := failed
  exact Nfa.missingOperand_of_ofPostfix keeps few nonempty unassembled

/-- With balanced groups, only operands can be missing, unless there is nothing
    but groups, none of which stands beside another one. -/
theorem compile_of_balanced {expression : String} (balanced : Balanced expression.toList) :
    ((∃ n, expression.toList = List.replicate n '(' ++ List.replicate n ')') ∧
      compile expression = .error .emptyExpression) ∨
    ((¬ ∃ n, expression.toList = List.replicate n '(' ++ List.replicate n ')') ∧
      ∀ error, compile expression = .error error → ∃ lexeme : Lexeme, lexeme.StandsIn expression.toList ∧
        1 ≤ lexeme.token.precedence ∧ error = .malformed lexeme.position (.missingOperand lexeme.token)) := by
  obtain ⟨output, reordered⟩ := exists_toPostfix_of_balanced balanced
  have kept := toPostfix_perm reordered
  rw [← filter_expand_eq_nil_iff balanced]
  by_cases none : (expand expression).filter Lexeme.isKept = []
  · rw [none] at kept
    obtain rfl := kept.eq_nil
    exact .inl ⟨none, compile_eq_error_iff.mpr (.inr ⟨[], reordered, rfl⟩)⟩
  · refine .inr ⟨none, fun error failed => ?_⟩
    have nonempty : output ≠ [] := by
      rintro rfl
      exact none kept.symm.eq_nil
    obtain ⟨lexeme, member, misses⟩ := exists_operator_of_compile reordered nonempty failed
    exact ⟨lexeme, standsIn_of_mem_postfix reordered member, misses⟩

/-- What compiling makes of an expression, by its groups. -/
theorem compile_cases (expression : String) :
    (∃ index, FirstExcess expression.toList index ∧
      compile expression = .error (.malformed index .unmatchedRightParen)) ∨
    (∃ index, NeverExcess expression.toList ∧ LastUnclosed expression.toList index ∧
      compile expression = .error (.malformed index .unmatchedLeftParen)) ∨
    ((∃ n, expression.toList = List.replicate n '(' ++ List.replicate n ')') ∧
      compile expression = .error .emptyExpression) ∨
    (Balanced expression.toList ∧ (¬ ∃ n, expression.toList = List.replicate n '(' ++ List.replicate n ')') ∧
      ∀ error, compile expression = .error error → ∃ lexeme : Lexeme, lexeme.StandsIn expression.toList ∧
        1 ≤ lexeme.token.precedence ∧ error = .malformed lexeme.position (.missingOperand lexeme.token)) := by
  rcases toPostfix_cases expression with ⟨index, first, failed⟩ | ⟨index, never, last, failed⟩ | ⟨balanced, _⟩
  · exact .inl ⟨index, first, compile_eq_error_iff.mpr (.inl failed)⟩
  · exact .inr (.inl ⟨index, never, last, compile_eq_error_iff.mpr (.inl failed)⟩)
  · rcases compile_of_balanced balanced with empty | operands
    · exact .inr (.inr (.inl empty))
    · exact .inr (.inr (.inr ⟨balanced, operands⟩))

/-- What an error says about the text of the expression that has it. -/
def Blames (text : List Char) : CompileError → Prop
  | .malformed index .unmatchedRightParen => FirstExcess text index
  | .malformed index .unmatchedLeftParen => NeverExcess text ∧ LastUnclosed text index
  | .emptyExpression => ∃ n, text = List.replicate n '(' ++ List.replicate n ')'
  | .malformed _ (.missingOperand _) => Balanced text ∧ ¬ ∃ n, text = List.replicate n '(' ++ List.replicate n ')'
  | .malformed _ .missingOperator => False

section

variable {expression : String}

theorem blames_of_compile {error : CompileError} (failed : compile expression = .error error) :
    Blames expression.toList error := by
  rcases compile_cases expression with ⟨_, first, failed'⟩ | ⟨_, never, last, failed'⟩ | ⟨nested, failed'⟩ |
    ⟨balanced, other, only⟩
  · cases failed.symm.trans failed'
    exact first
  · cases failed.symm.trans failed'
    exact ⟨never, last⟩
  · cases failed.symm.trans failed'
    exact nested
  · obtain ⟨_, _, _, rfl⟩ := only error failed
    exact ⟨balanced, other⟩

theorem compile_of_firstExcess {index : Nat} (first : FirstExcess expression.toList index) :
    compile expression = .error (.malformed index .unmatchedRightParen) := by
  have excess : ¬ NeverExcess expression.toList := fun never => neverExcess_iff.mp never index first.1
  rcases compile_cases expression with ⟨_, first', failed⟩ | ⟨_, never, _⟩ | ⟨⟨n, written⟩, _⟩ | ⟨balanced, _⟩
  · rw [failed, first.unique first']
  · exact absurd never excess
  · exact absurd (written ▸ (Balanced.nested n).never) excess
  · exact absurd balanced.never excess

theorem compile_of_lastUnclosed {index : Nat} (never : NeverExcess expression.toList)
    (last : LastUnclosed expression.toList index) :
    compile expression = .error (.malformed index .unmatchedLeftParen) := by
  rcases compile_cases expression with ⟨_, first, _⟩ | ⟨_, _, last', failed⟩ | ⟨⟨n, written⟩, _⟩ | ⟨balanced, _⟩
  · exact absurd first.1 (neverExcess_iff.mp never _)
  · rw [failed, last.unique last']
  · rw [written] at last
    exact absurd last.1 ((Balanced.nested n).not_unclosedAt index)
  · exact absurd last.1 (balanced.not_unclosedAt index)

theorem compile_of_nested (nested : ∃ n, expression.toList = List.replicate n '(' ++ List.replicate n ')') :
    compile expression = .error .emptyExpression := by
  have balanced : Balanced expression.toList := by
    obtain ⟨n, written⟩ := nested
    rw [written]
    exact .nested n
  rcases compile_of_balanced balanced with ⟨_, failed⟩ | ⟨other, _⟩
  · exact failed
  · exact absurd nested other

/-- An expression misses an operand where it fails without another cause. -/
theorem compile_missingOperand_iff :
    (∃ index operator, compile expression = .error (.malformed index (.missingOperand operator))) ↔
      (∃ error, compile expression = .error error) ∧ (∀ index, ¬ ExcessAt expression.toList index) ∧
        (∀ index, ¬ UnclosedAt expression.toList index) ∧
          ¬ ∃ n, expression.toList = List.replicate n '(' ++ List.replicate n ')' := by
  constructor
  · rintro ⟨index, operator, failed⟩
    obtain ⟨balanced, other⟩ := blames_of_compile failed
    exact ⟨⟨_, failed⟩, neverExcess_iff.mp balanced.never, balanced.not_unclosedAt, other⟩
  · rintro ⟨⟨error, failed⟩, noExcess, noneUnclosed, other⟩
    rcases compile_cases expression with ⟨_, first, _⟩ | ⟨_, _, last, _⟩ | ⟨nested, _⟩ | ⟨_, _, only⟩
    · exact absurd first.1 (noExcess _)
    · exact absurd last.1 (noneUnclosed _)
    · exact absurd nested other
    · obtain ⟨lexeme, _, _, rfl⟩ := only error failed
      exact ⟨lexeme.position, lexeme.token, failed⟩

end

/-- The error of an expression: at the first place that closes too much; without
    one, at the last group that is never closed; without one, an expression that
    opens groups and only closes them again is empty, and all others that fail
    miss an operand. -/
theorem compile_error_iff (expression : String) :
    (∀ index, compile expression = .error (.malformed index .unmatchedRightParen) ↔
      FirstExcess expression.toList index) ∧
    (∀ index, compile expression = .error (.malformed index .unmatchedLeftParen) ↔
      (∀ other, ¬ ExcessAt expression.toList other) ∧ LastUnclosed expression.toList index) ∧
    (compile expression = .error .emptyExpression ↔
      ∃ n, expression.toList = List.replicate n '(' ++ List.replicate n ')') ∧
    ((∃ index operator, compile expression = .error (.malformed index (.missingOperand operator))) ↔
      (∃ error, compile expression = .error error) ∧ (∀ index, ¬ ExcessAt expression.toList index) ∧
        (∀ index, ¬ UnclosedAt expression.toList index) ∧
          ¬ ∃ n, expression.toList = List.replicate n '(' ++ List.replicate n ')') ∧
    ∀ index, compile expression ≠ .error (.malformed index .missingOperator) := by
  refine ⟨fun index => ⟨blames_of_compile, compile_of_firstExcess⟩, fun index => ⟨fun failed => ?_, ?_⟩,
    ⟨blames_of_compile, compile_of_nested⟩, compile_missingOperand_iff, fun index => blames_of_compile⟩
  · obtain ⟨never, last⟩ := blames_of_compile failed
    exact ⟨neverExcess_iff.mp never, last⟩
  · rintro ⟨noExcess, last⟩
    exact compile_of_lastUnclosed (neverExcess_iff.mpr noExcess) last

/-- A fault of the groups hides that the first operator misses an operand. -/
theorem compile_error_iff_hidden :
    compile "|())(" = .error (.malformed 3 .unmatchedRightParen) ∧
      compile "|(()(" = .error (.malformed 4 .unmatchedLeftParen) ∧
      compile "(())" = .error .emptyExpression ∧
      ∃ index operator, compile "|()" = .error (.malformed index (.missingOperand operator)) := by
  have bar : Balanced ['|'] := .singleton (by decide) (by decide)
  have unit : Balanced ['(', ')'] := .group .nil
  refine ⟨?_, ?_, ?_, ?_⟩
  · exact ((compile_error_iff _).1 3).mpr ((bar.append unit).firstExcess ['('])
  · have opens : Opens ['|', '(', '(', ')', '('] [4, 1] := .group (.group (.closed bar) unit) .nil
    exact ((compile_error_iff _).2.1 4).mpr ⟨neverExcess_iff.mp opens.neverExcess, opens.lastUnclosed⟩
  · exact (compile_error_iff _).2.2.1.mpr ⟨2, rfl⟩
  · have balanced := bar.append unit
    refine (compile_error_iff _).2.2.2.1.mpr ⟨⟨.malformed 0 (.missingOperand .alternation), rfl⟩,
      neverExcess_iff.mp balanced.never, balanced.not_unclosedAt, ?_⟩
    rintro ⟨n, written⟩
    have started := congrArg List.head? written
    cases n <;> cases started

end RegexCompiler
