import RegexCompiler.Proofs.Reordering
import RegexCompiler.Proofs.Respelling

namespace RegexCompiler

/-! ## Texts with more signs -/

/-- The text with a sign where its expansion states a concatenation, at the chosen
    ones of these places. It starts at an index and follows a token. -/
def signAfter (chosen : Nat → Bool) (previous : Option Token) (start : Nat) : List Char → List Char
  | [] => []
  | c :: rest =>
    let signed := c :: signAfter chosen (some (Token.ofChar c)) (start + 1) rest
    if previous.any (·.juxtaposed (Token.ofChar c)) && chosen start then Token.concatSign :: signed else signed

/-- The expression with signs for some of the concatenations that it writes without
    one, chosen by the index of the character that follows. -/
def withSigns (chosen : Nat → Bool) (expression : String) : String :=
  String.ofList (signAfter chosen none 0 expression.toList)

open Lexeme (expandAfter)

/-- Signs in the place of stated concatenations do not change the tokens of the
    expansion. -/
theorem map_token_expandAfter_signAfter (chosen : Nat → Bool) (previous : Option Token) (start i j : Nat)
    (text : List Char) :
    (expandAfter previous i (signAfter chosen previous start text)).map (·.token) =
      (expandAfter previous j text).map (·.token) := by
  induction text generalizing previous start i j with
  | nil => rfl
  | cons c rest ih =>
    have later := ih (some (Token.ofChar c)) (start + 1)
    rw [signAfter, Lexeme.expandAfter_cons previous j]
    cases joined : previous.any (·.juxtaposed (Token.ofChar c)) with
    | false =>
      rw [Bool.false_and, if_neg (by decide), Lexeme.expandAfter_cons, joined]
      simp [later (i + 1) (j + 1)]
    | true =>
      cases chosen start with
      | false =>
        rw [Bool.and_false, if_neg (by decide), Lexeme.expandAfter_cons, joined]
        simp [later (i + 1) (j + 1)]
      | true =>
        -- The sign takes the part of the stated concatenation, and nothing is joined to it.
        have sign : Token.ofChar Token.concatSign = .concat := by decide
        rw [Bool.and_true, if_pos rfl, Lexeme.expandAfter_operator (by rw [sign]; rfl), sign,
          Lexeme.expandAfter_some rfl, Lexeme.expandAfter_cons]
        simp [later (i + 1 + 1) (j + 1)]

theorem map_token_expand_withSigns (chosen : Nat → Bool) (expression : String) :
    (expand (withSigns chosen expression)).map (·.token) = (expand expression).map (·.token) := by
  rw [expand, withSigns, String.toList_ofList]
  exact map_token_expandAfter_signAfter chosen none 0 0 0 expression.toList

/-- Whether the lexeme is a character of the text, rather than stated. -/
def Lexeme.isSpelledIn (text : List Char) (lexeme : Lexeme) : Bool :=
  text[lexeme.position]? == some lexeme.token.toChar

theorem any_juxtaposed_concat (previous : Option Token) : previous.any (·.juxtaposed .concat) = false := by
  cases previous with
  | none => rfl
  | some token => exact Bool.and_false token.endsOperand

/-- A text with signs is written as its expansion is, but for the stated
    concatenations that are not chosen. -/
theorem signAfter_eq_filter (chosen : Nat → Bool) {whole text : List Char} {start : Nat}
    (ahead : whole.drop start = text) (previous : Option Token) :
    signAfter chosen previous start text =
      ((expandAfter previous start text).filter fun lexeme => lexeme.isSpelledIn whole || chosen lexeme.position).map
        (·.token.toChar) := by
  induction text generalizing previous start with
  | nil => rfl
  | cons c rest ih =>
    have here : whole[start]? = some c := by
      have first := congrArg (·[0]?) ahead
      simpa using first
    have behind : whole.drop (start + 1) = rest := by
      rw [← List.tail_drop, ahead, List.tail_cons]
    have spelled : (⟨Token.ofChar c, start⟩ : Lexeme).isSpelledIn whole = true := by
      simp [Lexeme.isSpelledIn, here]
    rw [signAfter, Lexeme.expandAfter_cons, ih behind]
    cases joined : previous.any (·.juxtaposed (Token.ofChar c)) with
    | false => simp [spelled]
    | true =>
      have stated : (⟨.concat, start⟩ : Lexeme).isSpelledIn whole = false := by
        rw [Lexeme.isSpelledIn, here, beq_eq_false_iff_ne]
        intro same
        have isSign : Token.ofChar c = .concat := by
          rw [Option.some.inj same]
          rfl
        rw [isSign, any_juxtaposed_concat] at joined
        cases joined
      cases choice : chosen start with
      | false => simp [spelled, stated, choice]
      | true =>
        have sign : Token.concat.toChar = Token.concatSign := rfl
        simp [spelled, stated, choice, sign]

theorem withSigns_eq_filter (chosen : Nat → Bool) (expression : String) :
    withSigns chosen expression = Lexeme.render ((expand expression).filter fun lexeme =>
      lexeme.isSpelledIn expression.toList || chosen lexeme.position) := by
  have ahead : expression.toList.drop 0 = expression.toList := rfl
  rw [withSigns, signAfter_eq_filter chosen ahead]
  rfl

/-- With all signs, a text is written as its expansion is. -/
theorem withSigns_true (expression : String) :
    withSigns (fun _ => true) expression = Lexeme.render (expand expression) := by
  rw [withSigns_eq_filter, List.filter_eq_self.mpr]
  simp

theorem Lexeme.render_congr {lexemes lexemes' : List Lexeme}
    (same : lexemes.map (·.token) = lexemes'.map (·.token)) :
    render lexemes = render lexemes' := by
  have chars := congrArg (List.map Token.toChar) same
  rw [List.map_map, List.map_map] at chars
  exact congrArg String.ofList chars

theorem filterMap_literal_signAfter (chosen : Nat → Bool) (previous : Option Token) (start : Nat) (text : List Char) :
    (signAfter chosen previous start text).filterMap (fun c => (Token.ofChar c).literal?) =
      text.filterMap fun c => (Token.ofChar c).literal? := by
  induction text generalizing previous start with
  | nil => rfl
  | cons c rest ih =>
    have sign : (Token.ofChar Token.concatSign).literal? = none := by decide
    rw [signAfter]
    split
    · rw [List.filterMap_cons, sign, List.filterMap_cons, List.filterMap_cons, ih]
    · rw [List.filterMap_cons, List.filterMap_cons, ih]

theorem ofExpression_withSigns (chosen : Nat → Bool) (expression : String) :
    Alphabet.ofExpression (withSigns chosen expression) = Alphabet.ofExpression expression := by
  rw [Alphabet.ofExpression, withSigns, String.toList_ofList, filterMap_literal_signAfter]
  rfl

/-! ## Compiling at other positions -/

/-- Compiling, but with all errors at other positions. -/
theorem compile_relocate (place : Nat → Nat) (expression : String) :
    (compile expression).mapError (.relocate place) = (do
      let postfixed ← toPostfix ((expand expression).map (.relocate place))
      let nfa ← Nfa.ofPostfix postfixed
      return { nfa, alphabet := Alphabet.ofExpression expression }) := by
  have same := compile_respell id place expression
  rw [Lexeme.respell_id, Alphabet.image_id] at same
  rw [← same]
  cases compile expression with
  | error fault => rfl
  | ok compiled => exact congrArg Except.ok (compiled.relabel_id).symm

/-- Expressions with the same literals and the same tokens in their expansions are
    compiled to the same, up to the positions of errors. -/
theorem compile_congr {expression expression' : String}
    (tokens : (expand expression).map (·.token) = (expand expression').map (·.token))
    (literals : Alphabet.ofExpression expression = Alphabet.ofExpression expression') :
    (compile expression).mapError (CompileError.relocate fun _ => 0) =
      (compile expression').mapError (CompileError.relocate fun _ => 0) := by
  have placed := congrArg (List.map fun token => (⟨token, 0⟩ : Lexeme)) tokens
  rw [List.map_map, List.map_map] at placed
  rw [compile_relocate, compile_relocate, literals]
  exact congrArg (fun lexemes => toPostfix lexemes >>= _) placed

/-- What is wrong, wherever it is; nothing is where an expression is empty. -/
def CompileError.kind : CompileError → Option Fault
  | .emptyExpression => none
  | .malformed _ fault => some fault

theorem CompileError.kind_relocate (place : Nat → Nat) (error : CompileError) :
    (error.relocate place).kind = error.kind := by
  cases error <;> rfl

/-- Signs may be added for any of the concatenations that an expression writes
    without one, which are those that its expansion states. The expansion keeps its
    tokens, so the text of an expansion is its own expansion. The expression is
    compiled to the same automaton and alphabet, or fails with an error of the same
    kind. -/
theorem compile_withSigns (chosen : Nat → Bool) (expression : String) :
    withSigns chosen expression = Lexeme.render ((expand expression).filter fun lexeme =>
      lexeme.isSpelledIn expression.toList || chosen lexeme.position) ∧
    withSigns (fun _ => true) expression = Lexeme.render (expand expression) ∧
    (expand (withSigns chosen expression)).map (·.token) = (expand expression).map (·.token) ∧
    Lexeme.render (expand (Lexeme.render (expand expression))) = Lexeme.render (expand expression) ∧
    (∀ compiled, compile expression = .ok compiled → compile (withSigns chosen expression) = .ok compiled) ∧
    ∀ error, compile expression = .error error →
      ∃ error', compile (withSigns chosen expression) = .error error' ∧ error'.kind = error.kind := by
  have tokens := map_token_expand_withSigns chosen expression
  obtain ⟨succeeds, fails⟩ :=
    outcome_of_mapError_eq (compile_congr tokens.symm (ofExpression_withSigns chosen expression).symm)
  refine ⟨withSigns_eq_filter chosen expression, withSigns_true expression, tokens, ?_, succeeds, fun error failed => ?_⟩
  · have again := map_token_expand_withSigns (fun _ => true) expression
    rw [withSigns_true] at again
    exact Lexeme.render_congr again
  · obtain ⟨error', failed', same⟩ := fails error failed
    have kinds := congrArg CompileError.kind same
    rw [CompileError.kind_relocate, CompileError.kind_relocate] at kinds
    exact ⟨error', failed', kinds⟩

/-- A sign moves the operator that is reported, and changes nothing else. -/
theorem compile_withSigns_moved :
    withSigns (· == 2) "abc|*" = "ab·c|*" ∧
    compile "abc|*" = .error (.malformed 3 (.missingOperand .alternation)) ∧
    (∃ error, compile "ab·c|*" = .error error ∧ error.kind = some (.missingOperand .alternation)) ∧
    ∃ compiled, compile "abc" = .ok compiled ∧ compile "ab·c" = .ok compiled := by
  have failed : compile "abc|*" = .error (.malformed 3 (.missingOperand .alternation)) := rfl
  have compiles : ∃ compiled, compile "abc" = .ok compiled := ⟨_, rfl⟩
  obtain ⟨compiled, compiles⟩ := compiles
  obtain ⟨_, _, _, _, _, fails⟩ := compile_withSigns (· == 2) "abc|*"
  obtain ⟨_, _, _, _, succeeds, _⟩ := compile_withSigns (· == 2) "abc"
  exact ⟨rfl, failed, fails _ failed, compiled, compiles, succeeds compiled compiles⟩

end RegexCompiler
