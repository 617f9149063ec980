import RegexCompiler.Proofs.Counting
import RegexCompiler.Proofs.Layout
import RegexCompiler.Proofs.Reordering

namespace RegexCompiler

/-! ## Longer expressions -/

namespace Parses

/-- An expression goes on with a factor, which belongs to its last term. -/
theorem extend {i : Nat} {u v sign : List Char} {t t' : PlacedTree} (parses : Parses .expression i u t)
    (isSign : sign = [] ∨ sign = [Token.concatSign]) (factor : Parses .factor (i + u.length + sign.length) v t') :
    ∃ whole, Parses .expression i (u ++ sign ++ v) whole := by
  cases parses with
  | ofTerm term => exact ⟨_, .ofTerm (term.join isSign factor)⟩
  | @alternation _ front back _ _ left right =>
    have place : i + (front ++ '|' :: back).length + sign.length =
        i + front.length + 1 + back.length + sign.length := by
      simp only [List.length_append, List.length_cons]
      omega
    rw [place] at factor
    have whole := Parses.alternation left (right.join isSign factor)
    rw [← List.cons_append, ← List.cons_append, ← List.append_assoc, ← List.append_assoc] at whole
    exact ⟨_, whole⟩

/-- A star that follows a term belongs to its last factor. -/
theorem star_term {i : Nat} {u : List Char} {t : PlacedTree} (parses : Parses .term i u t) :
    ∃ whole, Parses .term i (u ++ ['*']) whole := by
  cases parses with
  | ofFactor factor => exact ⟨_, .ofFactor (.star factor)⟩
  | juxtaposition term factor =>
    rw [List.append_assoc]
    exact ⟨_, .juxtaposition term (.star factor)⟩
  | concat term factor =>
    rw [List.append_assoc, List.cons_append]
    exact ⟨_, .concat term (.star factor)⟩

theorem star_expression {i : Nat} {u : List Char} {t : PlacedTree} (parses : Parses .expression i u t) :
    ∃ whole, Parses .expression i (u ++ ['*']) whole := by
  cases parses with
  | ofTerm term =>
    obtain ⟨whole, starred⟩ := term.star_term
    exact ⟨whole, .ofTerm starred⟩
  | alternation left right =>
    obtain ⟨whole, starred⟩ := right.star_term
    rw [List.append_assoc, List.cons_append]
    exact ⟨_, .alternation left starred⟩

end Parses

/-! ## Reading from left to right -/

/-- What can have been read of a group that starts at `i`, where `ended` tells
    whether an operand has ended last. -/
inductive ReadUpTo (i : Nat) : Bool → List Char → Prop where
  | start : ReadUpTo i false []
  | operand {w : List Char} {t : PlacedTree} : Parses .expression i w t → ReadUpTo i true w
  | operator {w : List Char} {t : PlacedTree} {sign : Char} : Parses .expression i w t →
    Token.ofChar sign = .concat ∨ Token.ofChar sign = .alternation → ReadUpTo i false (w ++ [sign])

theorem ReadUpTo.parses {i : Nat} {w : List Char} (read : ReadUpTo i true w) : ∃ t, Parses .expression i w t := by
  cases read with
  | operand parses => exact ⟨_, parses⟩

/-- Behind anything that was read there may be an atom. -/
theorem ReadUpTo.atom {i : Nat} {ended : Bool} {w v : List Char} {t : PlacedTree} (read : ReadUpTo i ended w)
    (atom : Parses .atom (i + w.length) v t) : ReadUpTo i true (w ++ v) := by
  cases read with
  | start => exact .operand (.ofTerm (.ofFactor (.ofAtom atom)))
  | operand parses =>
    obtain ⟨whole, extended⟩ := parses.extend (.inl rfl) (.ofAtom atom)
    rw [List.append_nil] at extended
    exact .operand extended
  | @operator w _ sign parses isSign =>
    rw [List.length_append, List.length_singleton, ← Nat.add_assoc] at atom
    rcases isSign with isConcat | isAlternation
    · obtain rfl := Token.toChar_eq isConcat
      obtain ⟨whole, extended⟩ := parses.extend (.inr rfl) (.ofAtom atom)
      exact .operand extended
    · obtain rfl := Token.toChar_eq isAlternation
      rw [List.append_assoc]
      exact .operand (.alternation parses (.ofFactor (.ofAtom atom)))

/-- The groups around a text that starts at a position, by what was read of
    each of them before the next one was opened. -/
inductive Enclosed : Nat → Nat → (List Char → List Char) → Prop where
  | outermost : Enclosed 0 0 id
  | group {depth i : Nat} {context : List Char → List Char} {ended : Bool} {w : List Char} :
    Enclosed depth i context → ReadUpTo i ended w →
      Enclosed (depth + 1) (i + w.length + 1) fun inner => context (w ++ '(' :: inner)

/-- What is left can be read to the end of an expression if each of its gaps has
    an operand and it closes the open groups. -/
theorem exists_parses {depth i : Nat} {context : List Char → List Char} {ended : Bool} {w : List Char}
    (enclosed : Enclosed depth i context) (read : ReadUpTo i ended w) (start : Nat) (rest : List Char)
    (gaps : bareGaps ended (Lexeme.ofChars start rest) = 0)
    (closed : closesGroups depth (Lexeme.ofChars start rest) = true) :
    ∃ t, Parses .expression 0 (context (w ++ rest)) t := by
  induction rest generalizing depth i context ended w start with
  | nil =>
    cases ended with
    | false => cases gaps
    | true =>
      obtain rfl : depth = 0 := by simpa [Lexeme.ofChars, closesGroups] using closed
      cases enclosed with
      | outermost =>
        rw [List.append_nil]
        exact read.parses
  | cons c rest ih =>
    rw [Lexeme.ofChars, bareGaps] at gaps
    obtain ⟨here, later⟩ := Nat.add_eq_zero_iff.mp gaps
    rw [Lexeme.ofChars, closesGroups] at closed
    -- All tokens but a literal and an open parenthesis stand only behind an operand.
    have operand : (Token.ofChar c).startsOperand = false → ∃ t, Parses .expression i w t := by
      intro noStart
      cases ended with
      | false =>
        rw [noStart] at here
        cases here
      | true => exact read.parses
    cases role : Token.ofChar c with
    | literal char =>
      rw [role] at later closed
      obtain rfl : c = char := Token.toChar_eq role
      rw [List.append_cons]
      exact ih enclosed (read.atom (.literal role)) (start + 1) later closed
    | leftParen =>
      rw [role] at later closed
      obtain rfl : c = '(' := Token.toChar_eq role
      exact ih (.group enclosed read) .start (start + 1) later closed
    | rightParen =>
      rw [role] at later closed operand
      obtain rfl : c = ')' := Token.toChar_eq role
      obtain ⟨t, parses⟩ := operand rfl
      cases enclosed with
      | outermost => cases closed
      | @group depth i context _ w' enclosed before =>
        have longer := ih enclosed (before.atom (.group parses)) (start + 1) later closed
        simpa only [List.append_assoc, List.cons_append, List.nil_append] using longer
    | star =>
      rw [role] at later closed operand
      obtain rfl : c = '*' := Token.toChar_eq role
      obtain ⟨t, parses⟩ := operand rfl
      obtain ⟨whole, starred⟩ := parses.star_expression
      rw [List.append_cons]
      exact ih enclosed (.operand starred) (start + 1) later closed
    | concat | alternation =>
      rw [role] at later closed operand
      obtain ⟨t, parses⟩ := operand rfl
      rw [List.append_cons]
      exact ih enclosed (.operator parses (by simp [role])) (start + 1) later closed

theorem compile_of_parses {expression : String} {t : PlacedTree}
    (parses : Parses .expression 0 expression.toList t) :
    compile expression = .ok ⟨t.tree.nfa, Alphabet.ofExpression expression⟩ :=
  compile_eq_ok_iff.mpr ⟨t.postorder, toPostfix_expand parses,
    Nfa.ofPostfix_postorder t.tree t.map_token_postorder, rfl⟩

theorem parses_of_compile {expression : String} {compiled : Compiled} (compiles : compile expression = .ok compiled) :
    ∃ t, Parses .expression 0 expression.toList t := by
  obtain ⟨gaps, closed⟩ := counts_of_compile compiles
  exact exists_parses .outermost .start 0 expression.toList gaps closed

/-! ## Gaps -/

/-- The last character of the text ends an operand. -/
def EndsOperand (text : List Char) : Prop :=
  ∃ c, text.getLast? = some c ∧ (Token.ofChar c).endsOperand = true

/-- The first character of the text starts an operand. -/
def StartsOperand (text : List Char) : Prop :=
  ∃ c, text.head? = some c ∧ (Token.ofChar c).startsOperand = true

theorem EndsOperand.cons {text : List Char} (ends : EndsOperand text) (c : Char) : EndsOperand (c :: text) := by
  obtain ⟨last, isLast, role⟩ := ends
  refine ⟨last, ?_, role⟩
  rw [List.getLast?_cons, isLast]
  rfl

theorem operand_at_gap {ended : Bool} {start : Nat} {before after : List Char}
    (gaps : bareGaps ended (Lexeme.ofChars start (before ++ after)) = 0) :
    (before = [] ∧ ended = true) ∨ EndsOperand before ∨ StartsOperand after := by
  induction before generalizing ended start with
  | nil =>
    cases ended with
    | true => exact .inl ⟨rfl, rfl⟩
    | false =>
      cases after with
      | nil => cases gaps
      | cons c rest =>
        obtain ⟨here, _⟩ := Nat.add_eq_zero_iff.mp gaps
        refine .inr (.inr ⟨c, rfl, ?_⟩)
        cases starts : (Token.ofChar c).startsOperand with
        | true => rfl
        | false => simp [starts] at here
  | cons c rest ih =>
    obtain ⟨_, later⟩ := Nat.add_eq_zero_iff.mp gaps
    rcases ih later with ⟨rfl, ends⟩ | ends | starts
    · exact .inr (.inl ⟨c, rfl, ends⟩)
    · exact .inr (.inl (ends.cons c))
    · exact .inr (.inr starts)

/-- The expressions that compile are those of the grammar. Wherever one of them
    is cut, an operand ends or starts, so that no star is misplaced, no group is
    empty and no binary operator leads, trails or follows another one. -/
theorem compiles_iff_parses (expression : String) :
    ((∃ compiled, compile expression = .ok compiled) ↔ ∃ t, Parses .expression 0 expression.toList t) ∧
      ∀ compiled, compile expression = .ok compiled →
        ∀ before after, expression.toList = before ++ after → EndsOperand before ∨ StartsOperand after := by
  refine ⟨⟨?_, ?_⟩, ?_⟩
  · rintro ⟨compiled, compiles⟩
    exact parses_of_compile compiles
  · rintro ⟨t, parses⟩
    exact ⟨_, compile_of_parses parses⟩
  · intro compiled compiles before after cut
    obtain ⟨gaps, _⟩ := counts_of_compile compiles
    rw [cut] at gaps
    rcases operand_at_gap gaps with ⟨_, impossible⟩ | operand
    · cases impossible
    · exact operand

/-- A repeated group behind a literal, cut in front of the star. -/
theorem compiles_iff_parses_group :
    ∃ compiled, compile "a(b)*" = .ok compiled ∧ "a(b)*".toList = ['a', '(', 'b', ')'] ++ ['*'] ∧
      (EndsOperand ['a', '(', 'b', ')'] ∨ StartsOperand ['*']) := by
  obtain ⟨grammar, gaps⟩ := compiles_iff_parses "a(b)*"
  have group : Parses .atom 1 ['(', 'b', ')'] (.literal 'b' 2) := .group (.ofTerm (.ofFactor (.ofAtom (.literal rfl))))
  have first : Parses .term 0 ['a'] (.literal 'a' 0) := .ofFactor (.ofAtom (.literal rfl))
  have parses : Parses .expression 0 "a(b)*".toList (.concat 1 (.literal 'a' 0) (.star 4 (.literal 'b' 2))) :=
    .ofTerm (.juxtaposition first (.star (.ofAtom group)))
  obtain ⟨compiled, compiles⟩ := grammar.mpr ⟨_, parses⟩
  exact ⟨compiled, compiles, rfl, gaps compiled compiles _ _ rfl⟩

end RegexCompiler
