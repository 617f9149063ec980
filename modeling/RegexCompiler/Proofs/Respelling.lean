import RegexCompiler.Compile
import RegexCompiler.Proofs.Renaming

/-! No pass looks at the character of a literal, and none at a position except to report an error there. -/

namespace RegexCompiler

/-! ## Tokens and lexemes -/

/-- The token with another character, if it is a literal. -/
def Token.rename (char : Char → Char) : Token → Token
  | .literal c => .literal (char c)
  | token => token

/-- The lexeme at another position. -/
def Lexeme.relocate (place : Nat → Nat) (lexeme : Lexeme) : Lexeme :=
  ⟨lexeme.token, place lexeme.position⟩

/-- The lexeme with another character and at another position. -/
def Lexeme.respell (char : Char → Char) (place : Nat → Nat) (lexeme : Lexeme) : Lexeme :=
  ⟨lexeme.token.rename char, place lexeme.position⟩

/-- The error at another position. -/
def CompileError.relocate (place : Nat → Nat) : CompileError → CompileError
  | .emptyExpression => .emptyExpression
  | .malformed position fault => .malformed (place position) fault

namespace Token

variable (char : Char → Char) (token : Token)

@[simp] theorem rename_id : token.rename id = token := by
  cases token <;> rfl

@[simp] theorem precedence_rename : (token.rename char).precedence = token.precedence := by
  cases token <;> rfl

@[simp] theorem endsOperand_rename : (token.rename char).endsOperand = token.endsOperand := by
  cases token <;> rfl

@[simp] theorem startsOperand_rename : (token.rename char).startsOperand = token.startsOperand := by
  cases token <;> rfl

theorem rename_eq_leftParen_iff : token.rename char = .leftParen ↔ token = .leftParen := by
  cases token <;> simp [rename]

theorem literal?_rename : (token.rename char).literal? = token.literal?.map char := by
  cases token <;> rfl

end Token

theorem Lexeme.respell_id (place : Nat → Nat) : Lexeme.respell id place = Lexeme.relocate place := by
  funext lexeme
  rw [respell, relocate, Token.rename_id]

@[simp] theorem CompileError.relocate_id (error : CompileError) : error.relocate id = error := by
  cases error <;> rfl

section

variable (char : Char → Char) (place : Nat → Nat)

theorem Lexeme.joinAfter_respell (previous : Option Token) (lexemes : List Lexeme) :
    joinAfter (previous.map (·.rename char)) (lexemes.map (.respell char place)) =
      (joinAfter previous lexemes).map (.respell char place) := by
  induction lexemes generalizing previous with
  | nil => rfl
  | cons lexeme rest ih =>
    have joined : (previous.map (·.rename char)).any (·.juxtaposed (lexeme.token.rename char)) =
        previous.any (·.juxtaposed lexeme.token) := by
      cases previous <;> simp [Token.juxtaposed]
    have later := ih (some lexeme.token)
    rw [Option.map_some] at later
    simp only [List.map_cons, joinAfter, respell, joined, apply_ite (List.map _), ← later]
    rfl

/-! ## Reordering -/

namespace Reordering

/-- The same with every lexeme replaced by another one. -/
def map (f : Lexeme → Lexeme) (r : Reordering) : Reordering :=
  { written := r.written.map f, waiting := r.waiting.map f }

theorem map_write (f : Lexeme → Lexeme) (written : Array Lexeme) (pending waiting : List Lexeme) :
    map f { written := written ++ pending, waiting := waiting } =
      { written := written.map f ++ pending.map f, waiting := waiting.map f } := by
  rw [map, mk.injEq]
  exact ⟨Array.toList_inj.mp (by simp), rfl⟩

theorem takeWhile_respell (test : Token → Bool) (blind : ∀ token, test (token.rename char) = test token)
    (waiting : List Lexeme) :
    (waiting.map (Lexeme.respell char place)).takeWhile (fun top => test top.token) =
        (waiting.takeWhile fun top => test top.token).map (.respell char place) ∧
      (waiting.map (Lexeme.respell char place)).dropWhile (fun top => test top.token) =
        (waiting.dropWhile fun top => test top.token).map (.respell char place) := by
  have same : (fun top => test top.token) ∘ Lexeme.respell char place = fun top => test top.token :=
    funext fun top => blind top.token
  rw [List.takeWhile_map, List.dropWhile_map, same]
  exact ⟨rfl, rfl⟩

theorem map_enqueue (operator : Lexeme) (r : Reordering) :
    (r.enqueue operator).map (.respell char place) =
      (r.map (.respell char place)).enqueue (operator.respell char place) := by
  have binds : (operator.respell char place).token.precedence = operator.token.precedence :=
    operator.token.precedence_rename char
  have blind (token : Token) : decide (operator.token.precedence ≤ (token.rename char).precedence) =
      decide (operator.token.precedence ≤ token.precedence) := by
    rw [Token.precedence_rename]
  obtain ⟨taken, dropped⟩ :=
    takeWhile_respell char place (fun top => operator.token.precedence ≤ top.precedence) blind r.waiting
  rw [enqueue, enqueue, map_write, mk.injEq, binds]
  exact ⟨congrArg _ taken.symm, congrArg _ dropped.symm⟩

theorem map_closeGroup (paren : Lexeme) (r : Reordering) :
    ((r.closeGroup paren).map (map (.respell char place))).mapError (.relocate place) =
      (r.map (.respell char place)).closeGroup (paren.respell char place) := by
  have blind (token : Token) : decide (token.rename char ≠ .leftParen) = decide (token ≠ .leftParen) := by
    rw [decide_eq_decide, ne_eq, token.rename_eq_leftParen_iff char]
  obtain ⟨taken, dropped⟩ := takeWhile_respell char place (fun top => top ≠ .leftParen) blind r.waiting
  simp only [closeGroup, map, taken, dropped]
  cases r.waiting.dropWhile (fun top => decide (top.token ≠ .leftParen)) with
  | nil => rfl
  | cons opening outside => exact congrArg Except.ok (map_write _ _ _ _)

theorem map_step (r : Reordering) (lexeme : Lexeme) :
    ((r.step lexeme).map (map (.respell char place))).mapError (.relocate place) =
      (r.map (.respell char place)).step (lexeme.respell char place) := by
  obtain ⟨token, position⟩ := lexeme
  cases token with
  | literal => exact congrArg Except.ok (by simp [map])
  | leftParen => rfl
  | rightParen => exact map_closeGroup char place ⟨.rightParen, position⟩ r
  | concat | alternation | star => exact congrArg Except.ok (map_enqueue char place _ r)

theorem map_respell_finish (r : Reordering) :
    (r.finish.map (List.map (.respell char place))).mapError (.relocate place) =
      (r.map (.respell char place)).finish := by
  have blind : (fun top : Lexeme => decide (top.token = .leftParen)) ∘ Lexeme.respell char place =
      fun top => decide (top.token = .leftParen) :=
    funext fun top => decide_eq_decide.mpr (top.token.rename_eq_leftParen_iff char)
  have found : (r.map (.respell char place)).waiting.find? (·.token = .leftParen) =
      (r.waiting.find? (·.token = .leftParen)).map (.respell char place) := by
    rw [map, List.find?_map, blind]
  rw [finish, finish, found]
  cases r.waiting.find? (·.token = .leftParen) with
  | some paren => rfl
  | none => exact congrArg Except.ok (by simp [map])

end Reordering

/-- Reordering does the same, however the lexemes are spelled, and reports an error
    where its lexeme stands. -/
theorem toPostfix_respell (lexemes : List Lexeme) :
    ((toPostfix lexemes).map (List.map (.respell char place))).mapError (.relocate place) =
      toPostfix (lexemes.map (.respell char place)) := by
  have start : Reordering.map (.respell char place) {} = {} := by simp [Reordering.map]
  have run := mapError_foldlM (Reordering.map_step char place) lexemes {}
  rw [start] at run
  rw [toPostfix, toPostfix, ← run]
  cases lexemes.foldlM Reordering.step {} with
  | error fault => rfl
  | ok after => exact after.map_respell_finish char place

theorem toPostfix_relocate (lexemes : List Lexeme) :
    ((toPostfix lexemes).map (List.map (.relocate place))).mapError (.relocate place) =
      toPostfix (lexemes.map (.relocate place)) := by
  have same := toPostfix_respell id place lexemes
  rwa [Lexeme.respell_id] at same

/-! ## Assembling -/

namespace Nfa

/-- The transitions that were added, with other characters. -/
def Builder.rename (builder : Builder) : Builder :=
  { builder with transitions := builder.transitions.rename id char }

namespace Builder

variable (builder : Builder)

theorem rename_connect (source : StateId) (symbol : Symbol) (target : StateId) :
    (builder.connect source symbol target).rename char =
      (builder.rename char).connect source (symbol.rename char) target := by
  rw [connect, rename, TransitionTable.rename_insert]
  rfl

theorem rename_literal (c : Char) :
    (builder.rename char).literal (char c) = ((builder.literal c).1, (builder.literal c).2.rename char) := by
  simp only [literal, connectLiteral, rename_connect]
  rfl

theorem rename_concat (first second : Fragment) :
    (builder.rename char).concat first second =
      ((builder.concat first second).1, (builder.concat first second).2.rename char) := by
  simp only [concat, connectEpsilon, rename_connect]
  rfl

theorem rename_alternation (left right : Fragment) :
    (builder.rename char).alternation left right =
      ((builder.alternation left right).1, (builder.alternation left right).2.rename char) := by
  simp only [alternation, connectEpsilon, rename_connect]
  rfl

theorem rename_star (inner : Fragment) :
    (builder.rename char).star inner = ((builder.star inner).1, (builder.star inner).2.rename char) := by
  simp only [star, connectEpsilon, rename_connect]
  rfl

end Builder

namespace Assembly

/-- The automaton built so far with other characters. -/
def rename (assembly : Assembly) : Assembly :=
  { assembly with builder := assembly.builder.rename char }

theorem step_respell (assembly : Assembly) (lexeme : Lexeme) :
    ((assembly.step lexeme).map (rename char)).mapError (.relocate place) =
      (assembly.rename char).step (lexeme.respell char place) := by
  obtain ⟨builder, stack⟩ := assembly
  obtain ⟨token, position⟩ := lexeme
  cases token with
  | literal c => exact congrArg (fun built => Except.ok (push stack built)) (builder.rename_literal char c).symm
  | leftParen | rightParen => rfl
  | star =>
    rcases stack with _ | ⟨inner, rest⟩
    · rfl
    · exact congrArg (fun built => Except.ok (push rest built)) (builder.rename_star char inner).symm
  | concat =>
    rcases stack with _ | ⟨second, _ | ⟨first, rest⟩⟩
    · rfl
    · rfl
    · exact congrArg (fun built => Except.ok (push rest built)) (builder.rename_concat char first second).symm
  | alternation =>
    rcases stack with _ | ⟨right, _ | ⟨left, rest⟩⟩
    · rfl
    · rfl
    · exact congrArg (fun built => Except.ok (push rest built)) (builder.rename_alternation char left right).symm

end Assembly

/-- The automaton with other characters, and otherwise as it is. -/
def relabel (nfa : Nfa) : Nfa :=
  nfa.rename id char nfa.numStates

@[simp] theorem relabel_id (nfa : Nfa) : nfa.relabel id = nfa := by
  rw [relabel, rename, TransitionTable.rename_id]
  rfl

theorem Assembly.map_respell_finish (assembly : Assembly) (last : Nat) :
    ((assembly.finish last).map (relabel char)).mapError (.relocate place) =
      (assembly.rename char).finish (place last) := by
  obtain ⟨builder, stack⟩ := assembly
  rcases stack with _ | ⟨whole, _ | ⟨other, rest⟩⟩ <;> rfl

/-- The assembly does the same, however the lexemes are spelled, and reports an error
    where its lexeme stands. -/
theorem ofPostfix_respell (lexemes : List Lexeme) :
    ((ofPostfix lexemes).map (relabel char)).mapError (.relocate place) =
      ofPostfix (lexemes.map (.respell char place)) := by
  rcases List.eq_nil_or_concat lexemes with rfl | ⟨front, last, rfl⟩
  · rfl
  · have start : Assembly.rename char {} = {} := by
      rw [Assembly.rename, Builder.rename, TransitionTable.rename_empty]
    have run := mapError_foldlM (Assembly.step_respell char place) (front ++ [last]) {}
    have ends : ((front ++ [last]).map (Lexeme.respell char place)).getLast? = some (last.respell char place) := by simp
    rw [start] at run
    rw [List.concat_eq_append, ofPostfix, ofPostfix, ← run, ends, List.getLast?_concat]
    cases (front ++ [last]).foldlM Assembly.step {} with
    | error fault => rfl
    | ok assembly => exact assembly.map_respell_finish char place last.position

end Nfa

/-! ## Compiling -/

/-- The alphabet of the other characters. -/
def Alphabet.image (alphabet : Alphabet) : Alphabet :=
  .ofList (alphabet.toList.map char)

/-- The automaton and the alphabet with other characters. -/
def Compiled.relabel (compiled : Compiled) : Compiled where
  nfa := compiled.nfa.relabel char
  alphabet := compiled.alphabet.image char

variable {char} in
@[simp] theorem Alphabet.mem_image {alphabet : Alphabet} {c : Char} :
    c ∈ alphabet.image char ↔ ∃ c' ∈ alphabet, char c' = c := by
  simp [image]

@[simp] theorem Alphabet.image_id (alphabet : Alphabet) : alphabet.image id = alphabet := by
  refine Std.ExtTreeSet.ext_mem fun c => ?_
  simp

@[simp] theorem Compiled.relabel_id (compiled : Compiled) : compiled.relabel id = compiled := by
  rw [relabel, Nfa.relabel_id, Alphabet.image_id]

/-- Compiling, but with other characters and with all errors at other positions. -/
theorem compile_respell (expression : String) :
    ((compile expression).map (Compiled.relabel char)).mapError (.relocate place) = (do
      let postfixed ← toPostfix ((expand expression).map (.respell char place))
      let nfa ← Nfa.ofPostfix postfixed
      return { nfa, alphabet := (Alphabet.ofExpression expression).image char }) := by
  rw [compile_eq, ← toPostfix_respell]
  cases toPostfix (expand expression) with
  | error fault => rfl
  | ok postfixed =>
    have assembled := Nfa.ofPostfix_respell char place postfixed
    change _ = Nfa.ofPostfix (postfixed.map (.respell char place)) >>= _
    rw [← assembled]
    change ((Nfa.ofPostfix postfixed >>= _).map _).mapError _ = _
    cases Nfa.ofPostfix postfixed with
    | error fault => rfl
    | ok nfa => rfl

end

end RegexCompiler
