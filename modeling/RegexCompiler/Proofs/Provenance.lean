import RegexCompiler.Postfix

namespace RegexCompiler

/-! ## Reordering -/

/-- Whether a lexeme belongs into a postfix expression. -/
def Lexeme.isKept (lexeme : Lexeme) : Bool :=
  !lexeme.token.isParen

theorem Lexeme.isKept_of_precedence {lexeme : Lexeme} (binds : 1 ≤ lexeme.token.precedence) :
    lexeme.isKept = true := by
  cases token : lexeme.token <;> simp [token, Token.precedence, isKept, Token.isParen] at binds ⊢

theorem Lexeme.isKept_of_ne {lexeme : Lexeme} (notLeft : lexeme.token ≠ .leftParen)
    (notRight : lexeme.token ≠ .rightParen) : lexeme.isKept = true := by
  cases token : lexeme.token <;> simp [token, isKept, Token.isParen] at notLeft notRight ⊢

namespace Reordering

/-- The lexemes that are written or will be. -/
def kept (r : Reordering) : List Lexeme :=
  r.written.toList ++ r.waiting.filter Lexeme.isKept

/-- No closing parenthesis waits. -/
def NoneClosing (r : Reordering) : Prop :=
  ∀ top ∈ r.waiting, top.token ≠ .rightParen

/-- A step keeps what was kept before and its lexeme, unless that is a
    parenthesis. -/
theorem step_kept {r after : Reordering} {lexeme : Lexeme} (noneClosing : r.NoneClosing)
    (passed : r.step lexeme = .ok after) :
    after.kept.Perm (r.kept ++ [lexeme].filter Lexeme.isKept) ∧ after.NoneClosing := by
  rcases step_cases passed with ⟨char, token, rfl⟩ | ⟨token, rfl⟩ | ⟨token, closed⟩ | ⟨token, rfl⟩
  · have keeps : lexeme.isKept = true := by simp [Lexeme.isKept, token, Token.isParen]
    refine ⟨?_, noneClosing⟩
    simp only [kept, Array.toList_push, List.append_assoc, List.filter_cons_of_pos keeps, List.filter_nil]
    exact (List.perm_append_comm).append_left _
  · have drops : ¬ lexeme.isKept = true := by simp [Lexeme.isKept, token, Token.isParen]
    refine ⟨?_, ?_⟩
    · simp [kept, List.filter_cons_of_neg drops]
    · intro top member
      rcases List.mem_cons.mp member with rfl | below
      · simp [token]
      · exact noneClosing top below
  · obtain ⟨pending, opening, below, waits, opens, inside, rfl⟩ := closeGroup_cases closed
    have drops : ¬ lexeme.isKept = true := by simp [Lexeme.isKept, token, Token.isParen]
    have dropsOpening : ¬ opening.isKept = true := by simp [Lexeme.isKept, opens, Token.isParen]
    rw [NoneClosing, waits] at noneClosing
    have keeps : ∀ top ∈ pending, top.isKept = true := fun top member =>
      Lexeme.isKept_of_ne (inside top member) (noneClosing top (List.mem_append_left _ member))
    refine ⟨?_, fun top member => noneClosing top (by simp [member])⟩
    simp [kept, waits, List.filter_cons_of_neg drops, List.filter_cons_of_neg dropsOpening,
      List.filter_eq_self.mpr keeps]
  · have isOperator : 1 ≤ lexeme.token.precedence := by
      rcases token with token | token | token <;> rw [token] <;> decide
    have keeps := Lexeme.isKept_of_precedence isOperator
    obtain ⟨pending, below, waits, strong, _, result⟩ := enqueue_cases lexeme r
    have keepsPending : ∀ top ∈ pending, top.isKept = true := fun top member =>
      Lexeme.isKept_of_precedence (Nat.le_trans isOperator (strong top member))
    rw [NoneClosing, waits] at noneClosing
    rw [result]
    refine ⟨?_, ?_⟩
    · simp only [kept, waits, Array.toList_appendList, List.filter_append, List.filter_cons_of_pos keeps,
        List.filter_eq_self.mpr keepsPending, List.filter_nil, List.append_assoc]
      exact ((List.perm_append_singleton lexeme _).symm.append_left pending).append_left _
    · intro top member
      rcases List.mem_cons.mp member with rfl | rest
      · rcases token with token | token | token <;> simp [token]
      · exact noneClosing top (List.mem_append_right _ rest)

theorem foldlM_kept {lexemes : List Lexeme} {r after : Reordering} (noneClosing : r.NoneClosing)
    (passed : lexemes.foldlM step r = .ok after) :
    after.kept.Perm (r.kept ++ lexemes.filter Lexeme.isKept) ∧ after.NoneClosing := by
  induction lexemes generalizing r with
  | nil =>
    cases passed
    exact ⟨by simp, noneClosing⟩
  | cons lexeme rest ih =>
    obtain ⟨between, first, others⟩ := foldlM_cons_eq_ok_iff.mp passed
    obtain ⟨keeps, noneClosing'⟩ := step_kept noneClosing first
    obtain ⟨keepsRest, noneClosing''⟩ := ih noneClosing' others
    refine ⟨keepsRest.trans ?_, noneClosing''⟩
    have split : (lexeme :: rest).filter Lexeme.isKept = [lexeme].filter Lexeme.isKept ++ rest.filter Lexeme.isKept := by
      rw [← List.filter_append]
      rfl
    rw [split, ← List.append_assoc]
    exact keeps.append_right _

theorem finish_kept {r : Reordering} {output : List Lexeme} (noneClosing : r.NoneClosing)
    (finished : r.finish = .ok output) : output = r.kept := by
  rw [finish] at finished
  cases found : r.waiting.find? (·.token = .leftParen) with
  | some paren =>
    rw [found] at finished
    cases finished
  | none =>
    rw [found] at finished
    cases finished
    have keeps : ∀ top ∈ r.waiting, top.isKept = true := by
      intro top member
      refine Lexeme.isKept_of_ne ?_ (noneClosing top member)
      simpa using List.find?_eq_none.mp found top member
    rw [kept, List.filter_eq_self.mpr keeps]

end Reordering

/-- Reordering keeps all lexemes but the parentheses. -/
theorem toPostfix_perm {lexemes output : List Lexeme} (reordered : toPostfix lexemes = .ok output) :
    output.Perm (lexemes.filter Lexeme.isKept) := by
  obtain ⟨after, passed, finished⟩ := bind_eq_ok_iff.mp reordered
  obtain ⟨keeps, noneClosing⟩ := Reordering.foldlM_kept (by simp [Reordering.NoneClosing]) passed
  rw [Reordering.finish_kept noneClosing finished]
  simpa [Reordering.kept] using keeps

/-! ## Places -/

/-- The lexeme stands at the character that it is read from; a concatenation may
    also stand where an operand starts right behind another one. -/
def Lexeme.StandsIn (text : List Char) (lexeme : Lexeme) : Prop :=
  (text[lexeme.position]?).map Token.ofChar = some lexeme.token ∨
    lexeme.token = .concat ∧ ∃ index first second, lexeme.position = index + 1 ∧
      text[index]? = some first ∧ text[index + 1]? = some second ∧
        (Token.ofChar first).juxtaposed (Token.ofChar second) = true

theorem Lexeme.standsIn_joinAfter (before chars : List Char) {lexeme : Lexeme}
    (member : lexeme ∈ joinAfter (before.getLast?.map Token.ofChar) (ofChars before.length chars)) :
    lexeme.StandsIn (before ++ chars) := by
  induction chars generalizing before with
  | nil => cases member
  | cons c rest ih =>
    have later : lexeme ∈ joinAfter (some (Token.ofChar c)) (ofChars (before.length + 1) rest) →
        lexeme.StandsIn (before ++ c :: rest) := by
      intro member
      rw [List.append_cons]
      refine ih (before ++ [c]) ?_
      simpa using member
    have here : lexeme = ⟨Token.ofChar c, before.length⟩ → lexeme.StandsIn (before ++ c :: rest) := by
      rintro rfl
      exact .inl (by simp)
    rw [ofChars, joinAfter] at member
    split at member
    · rename_i joined
      rcases List.mem_cons.mp member with rfl | member
      · rcases List.eq_nil_or_concat before with rfl | ⟨front, first, rfl⟩
        · cases joined
        · refine .inr ⟨rfl, front.length, first, c, by simp, by simp, by simp, ?_⟩
          simpa using joined
      · rcases List.mem_cons.mp member with same | member
        · exact here same
        · exact later member
    · rcases List.mem_cons.mp member with same | member
      · exact here same
      · exact later member

theorem standsIn_of_mem_expand {expression : String} {lexeme : Lexeme} (member : lexeme ∈ expand expression) :
    lexeme.StandsIn expression.toList :=
  Lexeme.standsIn_joinAfter [] expression.toList member

theorem standsIn_of_mem_postfix {expression : String} {output : List Lexeme} {lexeme : Lexeme}
    (reordered : toPostfix (expand expression) = .ok output) (member : lexeme ∈ output) :
    lexeme.StandsIn expression.toList := by
  have listed := (toPostfix_perm reordered).mem_iff.mp member
  exact standsIn_of_mem_expand (List.mem_filter.mp listed).1

end RegexCompiler
