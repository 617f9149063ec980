import RegexCompiler.Grammar
import RegexCompiler.Postfix

/-! The postfix order of an expression is the postorder of its tree (`toPostfix_expand`). -/

namespace RegexCompiler

/-! ## Expanding a text part by part -/

namespace Lexeme

/-- The lexemes of a text with every concatenation explicit, where the text
    starts at a position and follows a token. -/
def expandAfter (previous : Option Token) (start : Nat) (chars : List Char) : List Lexeme :=
  joinAfter previous (ofChars start chars)

/-- The last token of a text that follows a token. -/
def lastToken (previous : Option Token) : List Char → Option Token
  | [] => previous
  | c :: rest => lastToken (some (Token.ofChar c)) rest

theorem expandAfter_cons (previous : Option Token) (start : Nat) (c : Char) (rest : List Char) :
    expandAfter previous start (c :: rest) =
      (if previous.any (·.juxtaposed (Token.ofChar c)) then [⟨.concat, start⟩] else []) ++
        ⟨Token.ofChar c, start⟩ :: expandAfter (some (Token.ofChar c)) (start + 1) rest := by
  rw [expandAfter, ofChars, joinAfter]
  split
  · rfl
  · rfl

theorem lastToken_append (previous : Option Token) (u v : List Char) :
    lastToken previous (u ++ v) = lastToken (lastToken previous u) v := by
  induction u generalizing previous with
  | nil => rfl
  | cons c rest ih => exact ih _

theorem expandAfter_append (previous : Option Token) (start : Nat) (u v : List Char) :
    expandAfter previous start (u ++ v) =
      expandAfter previous start u ++ expandAfter (lastToken previous u) (start + u.length) v := by
  induction u generalizing previous start with
  | nil => rfl
  | cons c rest ih =>
    rw [List.cons_append, expandAfter_cons, expandAfter_cons, ih, lastToken, List.length_cons,
      Nat.add_right_comm, Nat.add_assoc, List.append_assoc, List.cons_append]

/-- A character that starts no operand is never joined to what precedes it. -/
theorem expandAfter_operator {c : Char} (starts : (Token.ofChar c).startsOperand = false)
    (previous : Option Token) (start : Nat) (rest : List Char) :
    expandAfter previous start (c :: rest) =
      ⟨Token.ofChar c, start⟩ :: expandAfter (some (Token.ofChar c)) (start + 1) rest := by
  have apart : previous.any (·.juxtaposed (Token.ofChar c)) = false := by
    cases previous <;> simp [Token.juxtaposed, starts]
  rw [expandAfter_cons, apart]
  rfl

theorem expandAfter_some {token : Token} (ends : token.endsOperand = false) (start : Nat) (chars : List Char) :
    expandAfter (some token) start chars = expandAfter none start chars := by
  cases chars with
  | nil => rfl
  | cons c rest =>
    have apart : (some token).any (·.juxtaposed (Token.ofChar c)) = false := by
      rw [Option.any_some, Token.juxtaposed, ends, Bool.false_and]
    rw [expandAfter_cons, expandAfter_cons, apart]
    rfl

/-- Two operands side by side are joined where the second one starts. -/
theorem expandAfter_juxtaposed {previous : Option Token} {c : Char} (ends : previous.any (·.endsOperand) = true)
    (starts : (Token.ofChar c).startsOperand = true) (start : Nat) (rest : List Char) :
    expandAfter previous start (c :: rest) = ⟨.concat, start⟩ :: expandAfter none start (c :: rest) := by
  have joined : previous.any (·.juxtaposed (Token.ofChar c)) = true := by
    cases previous with
    | none => cases ends
    | some token =>
      rw [Option.any_some] at ends ⊢
      rw [Token.juxtaposed, ends, starts, Bool.true_and]
  rw [expandAfter_cons, expandAfter_cons, joined]
  rfl

end Lexeme

open Lexeme (expandAfter lastToken)

namespace Parses

theorem starts {category : Category} {i : Nat} {w : List Char} {t : PlacedTree} (parses : Parses category i w t) :
    ∃ c rest, w = c :: rest ∧ (Token.ofChar c).startsOperand = true := by
  induction parses with
  | ofTerm _ ih => exact ih
  | ofFactor _ ih => exact ih
  | ofAtom _ ih => exact ih
  | alternation _ _ ih _ =>
    obtain ⟨c, rest, rfl, starts⟩ := ih
    exact ⟨c, _, rfl, starts⟩
  | juxtaposition _ _ ih _ =>
    obtain ⟨c, rest, rfl, starts⟩ := ih
    exact ⟨c, _, rfl, starts⟩
  | concat _ _ ih _ =>
    obtain ⟨c, rest, rfl, starts⟩ := ih
    exact ⟨c, _, rfl, starts⟩
  | star _ ih =>
    obtain ⟨c, rest, rfl, starts⟩ := ih
    exact ⟨c, _, rfl, starts⟩
  | literal isLiteral => exact ⟨_, [], rfl, by rw [isLiteral]; rfl⟩
  | group _ _ => exact ⟨'(', _, rfl, rfl⟩

theorem ends {category : Category} {i : Nat} {w : List Char} {t : PlacedTree} (parses : Parses category i w t)
    (previous : Option Token) : (lastToken previous w).any (·.endsOperand) = true := by
  induction parses generalizing previous with
  | ofTerm _ ih => exact ih previous
  | ofFactor _ ih => exact ih previous
  | ofAtom _ ih => exact ih previous
  | alternation _ _ _ ih =>
    rw [Lexeme.lastToken_append]
    exact ih _
  | juxtaposition _ _ _ ih =>
    rw [Lexeme.lastToken_append]
    exact ih _
  | concat _ _ _ ih =>
    rw [Lexeme.lastToken_append]
    exact ih _
  | star _ _ =>
    rw [Lexeme.lastToken_append]
    rfl
  | literal isLiteral =>
    rw [lastToken, isLiteral]
    rfl
  | group _ _ =>
    rw [Lexeme.lastToken_append]
    rfl

end Parses

/-! ## Operators that wait -/

/-- No waiting operator is written when one arrives that binds at least as
    strongly as `level`. -/
def Halts (level : Nat) (waiting : List Lexeme) : Prop :=
  ∀ top, waiting.head? = some top → top.token.precedence < level

theorem halts_cons {level : Nat} {top : Lexeme} {below : List Lexeme} (weaker : top.token.precedence < level) :
    Halts level (top :: below) := by
  rintro _ ⟨⟩
  exact weaker

theorem Halts.mono {level level' : Nat} {waiting : List Lexeme} (halts : Halts level waiting) (le : level ≤ level') :
    Halts level' waiting :=
  fun top first => Nat.lt_of_lt_of_le (halts top first) le

theorem Reordering.enqueue_eq {operator : Lexeme} {r : Reordering} {pending below : List Lexeme}
    (waits : r.waiting = pending ++ below)
    (binds : ∀ top ∈ pending, operator.token.precedence ≤ top.token.precedence)
    (halts : Halts operator.token.precedence below) :
    r.enqueue operator = { written := r.written ++ pending, waiting := operator :: below } := by
  have stops : below.takeWhile (fun top => operator.token.precedence ≤ top.token.precedence) = [] ∧
      below.dropWhile (fun top => operator.token.precedence ≤ top.token.precedence) = below := by
    cases below with
    | nil => exact ⟨rfl, rfl⟩
    | cons top rest =>
      have weaker : ¬ operator.token.precedence ≤ top.token.precedence := Nat.not_le.mpr (halts top rfl)
      simp [weaker]
  have passes : ∀ top ∈ pending, decide (operator.token.precedence ≤ top.token.precedence) = true :=
    fun top member => decide_eq_true (binds top member)
  rw [enqueue, waits, List.takeWhile_append_of_pos passes, List.dropWhile_append_of_pos passes, stops.1, stops.2,
    List.append_nil]

theorem Reordering.closeGroup_eq {paren opening : Lexeme} {r : Reordering} {pending below : List Lexeme}
    (waits : r.waiting = pending ++ opening :: below) (opens : opening.token = .leftParen)
    (inside : ∀ top ∈ pending, top.token ≠ .leftParen) :
    r.closeGroup paren = .ok { written := r.written ++ pending, waiting := below } := by
  have passes : ∀ top ∈ pending, decide (top.token ≠ .leftParen) = true :=
    fun top member => decide_eq_true (inside top member)
  have stops : decide (opening.token ≠ .leftParen) = false := decide_eq_false (not_not_intro opens)
  rw [closeGroup, waits, List.takeWhile_append_of_pos passes, List.dropWhile_append_of_pos passes,
    List.takeWhile_cons, List.dropWhile_cons, stops]
  simp only [Bool.false_eq_true, if_false, List.append_nil]

/-- Reading the lexemes on top of operators that bind weaker than `level` writes
    the `output`, up to operators that wait and bind at least as strongly. -/
def Reorders (level : Nat) (lexemes output : List Lexeme) : Prop :=
  ∀ r : Reordering, Halts level r.waiting →
    ∃ (after : Reordering) (front pending : List Lexeme), lexemes.foldlM Reordering.step r = .ok after ∧
      after.written.toList = r.written.toList ++ front ∧ after.waiting = pending ++ r.waiting ∧
      front ++ pending = output ∧ ∀ top ∈ pending, level ≤ top.token.precedence

namespace Reorders

theorem mono {level level' : Nat} {lexemes output : List Lexeme} (reorders : Reorders level' lexemes output)
    (le : level ≤ level') : Reorders level lexemes output := by
  intro r halts
  obtain ⟨after, front, pending, passed, written, waits, whole, strong⟩ := reorders r (halts.mono le)
  exact ⟨after, front, pending, passed, written, waits, whole, fun top member => Nat.le_trans le (strong top member)⟩

theorem literal (level : Nat) (char : Char) (position : Nat) :
    Reorders level [⟨.literal char, position⟩] [⟨.literal char, position⟩] := by
  intro r _
  refine ⟨{ r with written := r.written.push ⟨.literal char, position⟩ }, [⟨.literal char, position⟩], [], rfl, ?_,
    rfl, rfl, by simp⟩
  exact Array.toList_push

/-- An operator takes its place behind its first operand, while its second one is
    read. -/
theorem binary (operator : Lexeme) (isOperator : operator.token = .concat ∨ operator.token = .alternation)
    {first second output output' : List Lexeme}
    (left : Reorders operator.token.precedence first output)
    (right : Reorders (operator.token.precedence + 1) second output') :
    Reorders operator.token.precedence (first ++ operator :: second) (output ++ output' ++ [operator]) := by
  intro r halts
  obtain ⟨between, front, pending, passed, written, waits, rfl, strong⟩ := left r halts
  have steps : Reordering.step between operator = .ok (between.enqueue operator) := by
    rcases isOperator with same | same <;> simp only [Reordering.step, same]
  -- The operator writes what its first operand left waiting, and nothing below.
  rw [Reordering.enqueue_eq waits strong halts] at steps
  obtain ⟨after, front', pending', passed', written', waits', rfl, strong'⟩ :=
    right ⟨between.written ++ pending, operator :: r.waiting⟩ (halts_cons (Nat.lt_succ_self _))
  refine ⟨after, front ++ pending ++ front', pending' ++ [operator], ?_, ?_, ?_, ?_, ?_⟩
  · rw [foldlM_append_of_ok passed, foldlM_cons_of_ok steps, passed']
  · rw [written', Array.toList_appendList, written]
    simp only [List.append_assoc]
  · rw [waits', List.append_assoc]
    rfl
  · simp only [List.append_assoc]
  · intro top member
    rcases List.mem_append.mp member with inRight | isLast
    · exact Nat.le_of_succ_le (strong' top inRight)
    · obtain rfl := List.mem_singleton.mp isLast
      exact Nat.le_refl _

theorem star {position : Nat} {inner output : List Lexeme} (reorders : Reorders Token.star.precedence inner output) :
    Reorders Token.star.precedence (inner ++ [⟨.star, position⟩]) (output ++ [⟨.star, position⟩]) := by
  intro r halts
  obtain ⟨between, front, pending, passed, written, waits, rfl, strong⟩ := reorders r halts
  have steps : Reordering.step between ⟨.star, position⟩ = .ok (between.enqueue ⟨.star, position⟩) := rfl
  rw [Reordering.enqueue_eq waits strong halts] at steps
  refine ⟨⟨between.written ++ pending, ⟨.star, position⟩ :: r.waiting⟩, front ++ pending, [⟨.star, position⟩],
    ?_, ?_, rfl, rfl, ?_⟩
  · rw [foldlM_append_of_ok passed, foldlM_cons_of_ok steps]
    rfl
  · rw [Array.toList_appendList, written, List.append_assoc]
  · intro top member
    obtain rfl := List.mem_singleton.mp member
    exact Nat.le_refl _

theorem group {level i j : Nat} {inner output : List Lexeme}
    (reorders : Reorders Token.alternation.precedence inner output) :
    Reorders level (⟨.leftParen, i⟩ :: (inner ++ [⟨.rightParen, j⟩])) output := by
  intro r _
  obtain ⟨between, front, pending, passed, written, waits, rfl, strong⟩ :=
    reorders { r with waiting := ⟨.leftParen, i⟩ :: r.waiting } (halts_cons Nat.one_pos)
  have opens : Reordering.step r ⟨.leftParen, i⟩ = .ok { r with waiting := ⟨.leftParen, i⟩ :: r.waiting } := rfl
  have closes : Reordering.step between ⟨.rightParen, j⟩ = between.closeGroup ⟨.rightParen, j⟩ := rfl
  rw [Reordering.closeGroup_eq waits rfl fun top member => Token.ne_leftParen_of_precedence (strong top member)] at closes
  refine ⟨⟨between.written ++ pending, r.waiting⟩, front ++ pending, [], ?_, ?_, rfl, List.append_nil _, by simp⟩
  · rw [foldlM_cons_of_ok opens, foldlM_append_of_ok passed, foldlM_cons_of_ok closes]
    rfl
  · rw [Array.toList_appendList, written, List.append_assoc]

end Reorders

/-! ## Parts of an expression -/

/-- The precedence of the operators that hold a part of an expression together. -/
def Category.level : Category → Nat
  | .expression => Token.alternation.precedence
  | .term => Token.concat.precedence
  | .factor => Token.star.precedence
  | .atom => Token.star.precedence + 1

/-- A part of an expression is reordered to the postorder of its tree. -/
theorem Parses.reorders {category : Category} {i : Nat} {w : List Char} {t : PlacedTree}
    (parses : Parses category i w t) : Reorders category.level (expandAfter none i w) t.postorder := by
  induction parses with
  | ofTerm _ ih => exact ih.mono (by decide)
  | ofFactor _ ih => exact ih.mono (by decide)
  | ofAtom _ ih => exact ih.mono (by decide)
  | @alternation i u v left right _ _ ihLeft ihRight =>
    rw [Lexeme.expandAfter_append, Lexeme.expandAfter_operator rfl, Lexeme.expandAfter_some rfl]
    exact Reorders.binary ⟨.alternation, i + u.length⟩ (.inr rfl) ihLeft ihRight
  | @juxtaposition i u v first second left right ihFirst ihSecond =>
    obtain ⟨c, rest, rfl, starts⟩ := right.starts
    rw [Lexeme.expandAfter_append, Lexeme.expandAfter_juxtaposed (left.ends none) starts]
    exact Reorders.binary ⟨.concat, i + u.length⟩ (.inl rfl) ihFirst ihSecond
  | @concat i u v first second _ _ ihFirst ihSecond =>
    rw [Lexeme.expandAfter_append, Lexeme.expandAfter_operator rfl, Lexeme.expandAfter_some rfl]
    exact Reorders.binary ⟨.concat, i + u.length⟩ (.inl rfl) ihFirst ihSecond
  | star _ ih =>
    rw [Lexeme.expandAfter_append, Lexeme.expandAfter_operator rfl]
    exact ih.star
  | @literal i c isLiteral =>
    rw [Lexeme.expandAfter_cons, isLiteral]
    exact Reorders.literal _ c i
  | @group i w t _ ih =>
    have opens : expandAfter none i ('(' :: (w ++ [')'])) =
        ⟨.leftParen, i⟩ :: (expandAfter none (i + 1) w ++ [⟨.rightParen, i + 1 + w.length⟩]) := by
      rw [Lexeme.expandAfter_cons, Lexeme.expandAfter_some rfl, Lexeme.expandAfter_append,
        Lexeme.expandAfter_operator rfl]
      rfl
    rw [List.cons_append, opens]
    exact ih.group

theorem Reorders.toPostfix_eq {level : Nat} {lexemes output : List Lexeme} (reorders : Reorders level lexemes output)
    (positive : 1 ≤ level) : toPostfix lexemes = .ok output := by
  obtain ⟨after, front, pending, passed, written, waits, rfl, strong⟩ := reorders {} (by rintro _ ⟨⟩)
  have closed : after.waiting.find? (·.token = .leftParen) = none := by
    rw [List.find?_eq_none, waits, List.append_nil]
    intro top member
    have differs := Token.ne_leftParen_of_precedence (Nat.le_trans positive (strong top member))
    simpa using differs
  have finished : after.finish = .ok (front ++ pending) := by
    rw [Reordering.finish, closed, written, waits, List.append_nil]
    rfl
  rw [toPostfix, passed]
  exact finished

/-- The postfix order of an expression is the postorder of its tree. -/
theorem toPostfix_expand {expression : String} {t : PlacedTree}
    (parses : Parses .expression 0 expression.toList t) : toPostfix (expand expression) = .ok t.postorder :=
  parses.reorders.toPostfix_eq (Nat.le_refl _)

end RegexCompiler
