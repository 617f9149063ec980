import RegexCompiler.Compile

/-!
The surplus of a sequence counts the operands that are left when every binary operator has joined two of
them. An expression that compiles has surplus one and no gap between its operands (`counts_of_compile`).
-/

namespace RegexCompiler

/-- A literal is one more operand, and a binary operator makes one of two. -/
def Token.surplus : Token → Int
  | .literal _ => 1
  | .concat | .alternation => -1
  | .star | .leftParen | .rightParen => 0

/-- How many operands are left when all binary operators have joined theirs. -/
def surplusOf : List Lexeme → Int
  | [] => 0
  | lexeme :: rest => lexeme.token.surplus + surplusOf rest

@[simp] theorem surplusOf_nil : surplusOf [] = 0 := rfl

@[simp] theorem surplusOf_cons (lexeme : Lexeme) (rest : List Lexeme) :
    surplusOf (lexeme :: rest) = lexeme.token.surplus + surplusOf rest := rfl

@[simp] theorem surplusOf_append (first second : List Lexeme) :
    surplusOf (first ++ second) = surplusOf first + surplusOf second := by
  induction first with
  | nil => simp
  | cons lexeme rest ih => simp [ih, Int.add_assoc]

/-- How many groups are open among the waiting lexemes. -/
def openGroups (waiting : List Lexeme) : Nat :=
  waiting.countP (·.token = .leftParen)

@[simp] theorem openGroups_append (first second : List Lexeme) :
    openGroups (first ++ second) = openGroups first + openGroups second :=
  List.countP_append

theorem openGroups_cons_of_eq {lexeme : Lexeme} (opens : lexeme.token = .leftParen) (rest : List Lexeme) :
    openGroups (lexeme :: rest) = openGroups rest + 1 :=
  List.countP_cons_of_pos (decide_eq_true opens)

theorem openGroups_cons_of_ne {lexeme : Lexeme} (differs : lexeme.token ≠ .leftParen) (rest : List Lexeme) :
    openGroups (lexeme :: rest) = openGroups rest :=
  List.countP_cons_of_neg (by simpa using differs)

theorem openGroups_eq_zero {waiting : List Lexeme} :
    openGroups waiting = 0 ↔ ∀ top ∈ waiting, top.token ≠ .leftParen := by
  simp [openGroups, List.countP_eq_zero]

/-- Whether a sequence that starts inside `depth` groups closes all of them and
    all that it opens itself, each after it was opened. -/
def closesGroups (depth : Nat) : List Lexeme → Bool
  | [] => depth == 0
  | lexeme :: rest =>
    match lexeme.token with
    | .leftParen => closesGroups (depth + 1) rest
    | .rightParen => depth != 0 && closesGroups (depth - 1) rest
    | _ => closesGroups depth rest

/-- How many gaps of a sequence have no operand that ends before them or starts
    behind them; `ended` tells whether one ends before the first gap. -/
def bareGaps (ended : Bool) : List Lexeme → Nat
  | [] => if ended then 0 else 1
  | lexeme :: rest => (if ended || lexeme.token.startsOperand then 0 else 1) + bareGaps lexeme.token.endsOperand rest

/-! ## Expanding -/

/-- Every start and every end of an operand counts once, and every gap less one. -/
theorem Token.surplus_eq (token : Token) :
    token.surplus = (if token.startsOperand then 1 else 0) + (if token.endsOperand then 1 else 0) - 1 := by
  cases token <;> rfl

/-- Stated concatenations leave one operand, less the gaps without any. -/
theorem surplusOf_joinAfter (previous : Option Token) (lexemes : List Lexeme) :
    surplusOf (Lexeme.joinAfter previous lexemes) + (if previous.any (·.endsOperand) then 1 else 0) =
      1 - bareGaps (previous.any (·.endsOperand)) lexemes := by
  induction lexemes generalizing previous with
  | nil =>
    rw [Lexeme.joinAfter, surplusOf_nil, bareGaps]
    split <;> rfl
  | cons lexeme rest ih =>
    have remaining := ih (some lexeme.token)
    have own := lexeme.token.surplus_eq
    have joined : previous.any (·.juxtaposed lexeme.token) =
        (previous.any (·.endsOperand) && lexeme.token.startsOperand) := by
      cases previous <;> rfl
    have stated : Token.concat.surplus = -1 := rfl
    -- The gap before the lexeme is bare, has one operand or has two and is stated.
    rw [Option.any_some] at remaining
    rw [Lexeme.joinAfter, joined, bareGaps]
    generalize lexeme.token.endsOperand = ends at *
    generalize lexeme.token.startsOperand = starts at *
    generalize previous.any (·.endsOperand) = ended at *
    cases ended <;> cases starts <;> simp at own remaining ⊢ <;> omega

theorem surplusOf_expand (expression : String) :
    surplusOf (expand expression) = 1 - bareGaps false (Lexeme.ofChars 0 expression.toList) := by
  have gaps := surplusOf_joinAfter none (Lexeme.ofChars 0 expression.toList)
  rw [Option.any_none] at gaps
  simpa [expand] using gaps

theorem closesGroups_joinAfter (depth : Nat) (previous : Option Token) (lexemes : List Lexeme) :
    closesGroups depth (Lexeme.joinAfter previous lexemes) = closesGroups depth lexemes := by
  induction lexemes generalizing depth previous with
  | nil => rfl
  | cons lexeme rest ih =>
    have kept : closesGroups depth (lexeme :: Lexeme.joinAfter (some lexeme.token) rest) =
        closesGroups depth (lexeme :: rest) := by
      rw [closesGroups, closesGroups]
      split <;> simp only [ih]
    rw [Lexeme.joinAfter]
    split
    · exact kept
    · exact kept

/-! ## Reordering -/

namespace Reordering

/-- The operands that are left of what was read so far. -/
def surplus (r : Reordering) : Int :=
  surplusOf r.written.toList + surplusOf r.waiting

theorem surplus_write (written : Array Lexeme) (pending below : List Lexeme) :
    surplus { written := written ++ pending, waiting := below } =
      surplus { written := written, waiting := pending ++ below } := by
  rw [surplus, surplus, Array.toList_appendList, surplusOf_append, surplusOf_append, Int.add_assoc]

theorem enqueue_counts (operator : Lexeme) (isOperator : 1 ≤ operator.token.precedence) (r : Reordering) :
    (r.enqueue operator).surplus = r.surplus + operator.token.surplus ∧
      openGroups (r.enqueue operator).waiting = openGroups r.waiting := by
  obtain ⟨pending, below, waits, strong, _, result⟩ := enqueue_cases operator r
  constructor
  · rw [result, surplus_write, surplus, surplus, waits]
    simp only [surplusOf_append, surplusOf_cons]
    omega
  · have inside : openGroups pending = 0 :=
      openGroups_eq_zero.mpr fun top member =>
        Token.ne_leftParen_of_precedence (Nat.le_trans isOperator (strong top member))
    rw [result, waits, openGroups_append, inside, Nat.zero_add]
    exact openGroups_cons_of_ne (Token.ne_leftParen_of_precedence isOperator) below

theorem closeGroup_counts {paren : Lexeme} {r after : Reordering} (closed : r.closeGroup paren = .ok after) :
    after.surplus = r.surplus ∧ openGroups r.waiting = openGroups after.waiting + 1 := by
  obtain ⟨pending, opening, below, waits, opens, inside, rfl⟩ := closeGroup_cases closed
  constructor
  · rw [surplus_write, surplus, surplus, waits]
    simp [opens, Token.surplus]
  · rw [waits, openGroups_append, openGroups_eq_zero.mpr inside, Nat.zero_add]
    exact openGroups_cons_of_eq opens below

theorem step_counts {r after : Reordering} {lexeme : Lexeme} (passed : r.step lexeme = .ok after) :
    after.surplus = r.surplus + lexeme.token.surplus ∧
      ∀ rest, closesGroups (openGroups r.waiting) (lexeme :: rest) = closesGroups (openGroups after.waiting) rest := by
  rcases step_cases passed with ⟨char, token, rfl⟩ | ⟨token, rfl⟩ | ⟨token, closed⟩ | ⟨token, rfl⟩
  · refine ⟨?_, fun rest => ?_⟩
    · simp only [surplus, Array.toList_push, surplusOf_append, surplusOf_cons, surplusOf_nil]
      omega
    · rw [closesGroups, token]
  · refine ⟨?_, fun rest => ?_⟩
    · simp only [surplus, surplusOf_cons]
      omega
    · rw [closesGroups, token, openGroups_cons_of_eq token]
  · obtain ⟨kept, opened⟩ := closeGroup_counts closed
    refine ⟨?_, fun rest => ?_⟩
    · rw [kept, token, Token.surplus, Int.add_zero]
    · rw [closesGroups, token, opened]
      rfl
  · have isOperator : 1 ≤ lexeme.token.precedence := by
      rcases token with token | token | token <;> rw [token] <;> decide
    obtain ⟨kept, opened⟩ := enqueue_counts lexeme isOperator r
    refine ⟨kept, fun rest => ?_⟩
    rw [opened, closesGroups]
    rcases token with token | token | token <;> rw [token]

theorem foldlM_counts {lexemes : List Lexeme} {r after : Reordering}
    (passed : lexemes.foldlM step r = .ok after) :
    after.surplus = r.surplus + surplusOf lexemes ∧
      closesGroups (openGroups r.waiting) lexemes = (openGroups after.waiting == 0) := by
  induction lexemes generalizing r with
  | nil =>
    cases passed
    exact ⟨(Int.add_zero _).symm, rfl⟩
  | cons lexeme rest ih =>
    obtain ⟨between, first, others⟩ := foldlM_cons_eq_ok_iff.mp passed
    obtain ⟨added, entered⟩ := step_counts first
    obtain ⟨total, closed⟩ := ih others
    refine ⟨?_, (entered rest).trans closed⟩
    rw [total, added, surplusOf_cons, Int.add_assoc]

theorem finish_counts {r : Reordering} {output : List Lexeme} (finished : r.finish = .ok output) :
    surplusOf output = r.surplus ∧ openGroups r.waiting = 0 := by
  rw [finish] at finished
  cases found : r.waiting.find? (·.token = .leftParen) with
  | some paren =>
    rw [found] at finished
    cases finished
  | none =>
    rw [found] at finished
    cases finished
    refine ⟨surplusOf_append _ _, openGroups_eq_zero.mpr fun top member => ?_⟩
    exact of_decide_eq_false (Bool.eq_false_iff.mpr (List.find?_eq_none.mp found top member))

end Reordering

/-- Reordering keeps the surplus and succeeds only if all groups are closed. -/
theorem counts_of_toPostfix {lexemes output : List Lexeme} (reordered : toPostfix lexemes = .ok output) :
    surplusOf output = surplusOf lexemes ∧ closesGroups 0 lexemes = true := by
  obtain ⟨after, passed, finished⟩ := bind_eq_ok_iff.mp reordered
  obtain ⟨total, closed⟩ := Reordering.foldlM_counts passed
  obtain ⟨kept, noneOpen⟩ := Reordering.finish_counts finished
  constructor
  · rw [kept, total]
    exact Int.zero_add _
  · rw [noneOpen] at closed
    exact closed

/-! ## Assembling -/

namespace Nfa.Assembly

/-- A step that succeeds finds the operands of its lexeme on the stack. -/
theorem step_cases {assembly after : Assembly} {lexeme : Lexeme} (passed : assembly.step lexeme = .ok after) :
    (∃ char, lexeme.token = .literal char ∧ after = push assembly.stack (assembly.builder.literal char)) ∨
    (∃ second first rest, lexeme.token = .concat ∧ assembly.stack = second :: first :: rest ∧
      after = push rest (assembly.builder.concat first second)) ∨
    (∃ right left rest, lexeme.token = .alternation ∧ assembly.stack = right :: left :: rest ∧
      after = push rest (assembly.builder.alternation left right)) ∨
    ∃ inner rest, lexeme.token = .star ∧ assembly.stack = inner :: rest ∧
      after = push rest (assembly.builder.star inner) := by
  obtain ⟨builder, stack⟩ := assembly
  cases token : lexeme.token with
  | literal char =>
    simp only [step, token] at passed
    cases passed
    exact .inl ⟨char, rfl, rfl⟩
  | concat =>
    rcases stack with _ | ⟨second, _ | ⟨first, rest⟩⟩ <;> simp only [step, token] at passed <;> cases passed
    exact .inr (.inl ⟨second, first, rest, rfl, rfl, rfl⟩)
  | alternation =>
    rcases stack with _ | ⟨right, _ | ⟨left, rest⟩⟩ <;> simp only [step, token] at passed <;> cases passed
    exact .inr (.inr (.inl ⟨right, left, rest, rfl, rfl, rfl⟩))
  | star =>
    rcases stack with _ | ⟨inner, rest⟩ <;> simp only [step, token] at passed <;> cases passed
    exact .inr (.inr (.inr ⟨inner, rest, rfl, rfl, rfl⟩))
  | leftParen | rightParen =>
    simp only [step, token] at passed
    cases passed

theorem step_counts {assembly after : Assembly} {lexeme : Lexeme} (passed : assembly.step lexeme = .ok after) :
    (after.stack.length : Int) = assembly.stack.length + lexeme.token.surplus := by
  rcases step_cases passed with ⟨char, token, rfl⟩ | ⟨second, first, rest, token, taken, rfl⟩ |
    ⟨right, left, rest, token, taken, rfl⟩ | ⟨inner, rest, token, taken, rfl⟩
  · rw [token]
    rfl
  · rw [token, taken]
    simp only [push, List.length_cons, Token.surplus]
    omega
  · rw [token, taken]
    simp only [push, List.length_cons, Token.surplus]
    omega
  · rw [token, taken]
    exact (Int.add_zero _).symm

theorem foldlM_counts {lexemes : List Lexeme} {assembly after : Assembly}
    (passed : lexemes.foldlM step assembly = .ok after) :
    (after.stack.length : Int) = assembly.stack.length + surplusOf lexemes := by
  induction lexemes generalizing assembly with
  | nil =>
    cases passed
    exact (Int.add_zero _).symm
  | cons lexeme rest ih =>
    obtain ⟨between, first, others⟩ := foldlM_cons_eq_ok_iff.mp passed
    rw [ih others, step_counts first, surplusOf_cons, Int.add_assoc]

theorem finish_counts {assembly : Assembly} {last : Nat} {nfa : Nfa} (finished : assembly.finish last = .ok nfa) :
    assembly.stack.length = 1 := by
  obtain ⟨builder, stack⟩ := assembly
  rcases stack with _ | ⟨whole, _ | ⟨other, rest⟩⟩
  · cases finished
  · rfl
  · cases finished

end Nfa.Assembly

theorem surplusOf_of_ofPostfix {lexemes : List Lexeme} {nfa : Nfa} (assembled : Nfa.ofPostfix lexemes = .ok nfa) :
    surplusOf lexemes = 1 := by
  obtain ⟨after, passed, finished⟩ := bind_eq_ok_iff.mp assembled
  have total := Nfa.Assembly.foldlM_counts passed
  rw [Nfa.Assembly.finish_counts finished] at total
  simpa using total.symm

/-! ## Compiling -/

/-- An expression that compiles has an operand at each gap and closes its groups. -/
theorem counts_of_compile {expression : String} {compiled : Compiled} (compiles : compile expression = .ok compiled) :
    bareGaps false (Lexeme.ofChars 0 expression.toList) = 0 ∧
      closesGroups 0 (Lexeme.ofChars 0 expression.toList) = true := by
  obtain ⟨postfixed, reordered, assembled, _⟩ := compile_eq_ok_iff.mp compiles
  obtain ⟨kept, closed⟩ := counts_of_toPostfix reordered
  have single := surplusOf_of_ofPostfix assembled
  rw [expand, closesGroups_joinAfter] at closed
  rw [kept, surplusOf_expand] at single
  exact ⟨by omega, closed⟩

end RegexCompiler
