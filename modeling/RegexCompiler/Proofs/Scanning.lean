import Mathlib.Data.List.Forall2
import RegexCompiler.Postfix
import RegexCompiler.Proofs.Grouping

/-! Reordering opens and closes groups as a scan does that remembers nothing but the places of the open ones. -/

namespace RegexCompiler

/-- Remembers where the open groups were opened, latest first. -/
def scan (opened : List Nat) (lexeme : Lexeme) : Except CompileError (List Nat) :=
  match lexeme.token with
  | .leftParen => .ok (lexeme.position :: opened)
  | .rightParen =>
    match opened with
    | [] => .error (.malformed lexeme.position .unmatchedRightParen)
    | _ :: outer => .ok outer
  | _ => .ok opened

/-- A group that is still open at the end is a fault of the innermost one. -/
def scanEnd : List Nat → Except CompileError Unit
  | [] => .ok ()
  | index :: _ => .error (.malformed index .unmatchedLeftParen)

/-- What is wrong with the parentheses of a sequence. -/
def checkGroups (lexemes : List Lexeme) : Except CompileError Unit := do
  let opened ← lexemes.foldlM scan []
  scanEnd opened

section

variable {lexeme : Lexeme}

theorem scan_leftParen (opens : lexeme.token = .leftParen) (opened : List Nat) :
    scan opened lexeme = .ok (lexeme.position :: opened) := by
  simp only [scan, opens]

theorem scan_rightParen_nil (closes : lexeme.token = .rightParen) :
    scan [] lexeme = .error (.malformed lexeme.position .unmatchedRightParen) := by
  simp only [scan, closes]

theorem scan_rightParen_cons (closes : lexeme.token = .rightParen) (index : Nat) (outer : List Nat) :
    scan (index :: outer) lexeme = .ok outer := by
  simp only [scan, closes]

theorem scan_of_not_isParen (other : ¬ lexeme.token.isParen = true) (opened : List Nat) :
    scan opened lexeme = .ok opened := by
  cases token : lexeme.token <;> simp [token, Token.isParen] at other <;> simp only [scan, token]

end

theorem foldlM_scan_filter (lexemes : List Lexeme) (opened : List Nat) :
    (lexemes.filter (·.token.isParen)).foldlM scan opened = lexemes.foldlM scan opened := by
  rw [List.foldlM_filter]
  congr 1
  funext opened lexeme
  split
  · rfl
  · exact (scan_of_not_isParen ‹_› opened).symm

/-! ## Reordering as a scan -/

namespace Reordering

/-- Where the waiting parentheses stand. -/
def opened (r : Reordering) : List Nat :=
  (r.waiting.filter (·.token = .leftParen)).map (·.position)

theorem map_opened_closeGroup {paren : Lexeme} (closes : paren.token = .rightParen) (r : Reordering) :
    (r.closeGroup paren).map opened = scan r.opened paren := by
  let inside (top : Lexeme) : Bool := top.token ≠ .leftParen
  have stops := List.head?_dropWhile_not inside r.waiting
  have innermost : r.opened = ((r.waiting.dropWhile inside).filter (·.token = .leftParen)).map (·.position) := by
    have above : (r.waiting.takeWhile inside).filter (·.token = .leftParen) = [] := by
      refine List.filter_eq_nil_iff.mpr fun top member => ?_
      simpa [inside] using List.all_eq_true.mp List.all_takeWhile top member
    have parts := List.takeWhile_append_dropWhile (p := inside) (l := r.waiting)
    rw [opened, ← parts, List.filter_append, above, List.nil_append, parts]
  simp only [closeGroup, scan, closes, innermost]
  cases rest : r.waiting.dropWhile inside with
  | nil => rfl
  | cons opening below =>
    rw [rest] at stops
    have opens : opening.token = .leftParen := by simpa [inside] using stops
    simp [opens, opened, Except.map]

/-- An operator writes some of what waits, but never a parenthesis or what is
    below one. -/
theorem step_operator {operator : Lexeme} (isOperator : 1 ≤ operator.token.precedence) (r : Reordering) :
    ∃ moved below, r.waiting = moved ++ below ∧ (∀ top ∈ moved, top.token ≠ .leftParen) ∧
      r.step operator = .ok { written := r.written ++ moved, waiting := operator :: below } := by
  obtain ⟨moved, below, waits, strong, _, result⟩ := enqueue_cases operator r
  refine ⟨moved, below, waits, fun top member => ?_, ?_⟩
  · exact Token.ne_leftParen_of_precedence (Nat.le_trans isOperator (strong top member))
  · cases token : operator.token with
    | concat | alternation | star => rw [step, token, result]
    | literal | leftParen | rightParen =>
      rw [token] at isOperator
      cases isOperator

theorem map_opened_step_operator {operator : Lexeme} (isOperator : 1 ≤ operator.token.precedence) (r : Reordering) :
    (r.step operator).map opened = .ok r.opened := by
  obtain ⟨moved, below, waits, inside, result⟩ := step_operator isOperator r
  have none : moved.filter (·.token = .leftParen) = [] :=
    List.filter_eq_nil_iff.mpr fun top member => by simpa using inside top member
  have own : operator.token ≠ .leftParen := Token.ne_leftParen_of_precedence isOperator
  rw [result, Except.map, opened, opened, waits]
  simp [none, own]

theorem map_opened_step (r : Reordering) (lexeme : Lexeme) :
    (r.step lexeme).map opened = scan r.opened lexeme := by
  cases token : lexeme.token with
  | literal char => simp [step, scan, token, opened, Except.map]
  | leftParen => simp [step, scan, token, opened, Except.map]
  | rightParen =>
    rw [step, token]
    exact map_opened_closeGroup token r
  | concat | alternation | star =>
    rw [map_opened_step_operator (by rw [token]; decide), scan_of_not_isParen (by rw [token]; decide)]

/-- The innermost of the groups that are still open is to blame at the end. -/
theorem map_finish (r : Reordering) : r.finish.map (fun _ => ()) = scanEnd r.opened := by
  have first : r.opened.head? = (r.waiting.find? (·.token = .leftParen)).map (·.position) := by
    rw [opened, List.head?_map, List.head?_filter]
  rw [finish]
  cases found : r.waiting.find? (·.token = .leftParen) with
  | none =>
    rw [found, Option.map_none, List.head?_eq_none_iff] at first
    rw [first]
    rfl
  | some paren =>
    rw [found, Option.map_some, List.head?_eq_some_iff] at first
    obtain ⟨outer, opens⟩ := first
    rw [opens]
    rfl

end Reordering

/-- Reordering fails where the groups are at fault, and with the same error. -/
theorem toPostfix_map (lexemes : List Lexeme) : (toPostfix lexemes).map (fun _ => ()) = checkGroups lexemes := by
  have scanned := map_foldlM Reordering.map_opened_step lexemes {}
  have none : Reordering.opened {} = [] := rfl
  rw [none] at scanned
  rw [toPostfix, checkGroups, ← scanned]
  cases lexemes.foldlM Reordering.step {} with
  | error error => rfl
  | ok r => exact r.map_finish

theorem toPostfix_of_checkGroups_error {lexemes : List Lexeme} {error : CompileError}
    (failed : checkGroups lexemes = .error error) : toPostfix lexemes = .error error := by
  rw [← toPostfix_map] at failed
  cases result : toPostfix lexemes with
  | error error' =>
    rw [result] at failed
    cases failed
    rfl
  | ok output =>
    rw [result] at failed
    cases failed

theorem exists_toPostfix_of_checkGroups {lexemes : List Lexeme} (passed : checkGroups lexemes = .ok ()) :
    ∃ output, toPostfix lexemes = .ok output := by
  rw [← toPostfix_map] at passed
  cases result : toPostfix lexemes with
  | error error =>
    rw [result] at passed
    cases passed
  | ok output => exact ⟨output, rfl⟩

/-! ## Scanning a text -/

/-- The text has the parentheses of the lexemes at their places, and no other
    ones. -/
def Outlines (text : List Char) (lexemes : List Lexeme) : Prop :=
  List.Forall₂ (fun c lexeme => (c = '(' ↔ lexeme.token = .leftParen) ∧ (c = ')' ↔ lexeme.token = .rightParen))
    text lexemes

section

variable {place : Nat → Nat} {text : List Char} {opened : List Nat} (opens : Opens text opened)
include opens

/-- A lexeme changes the open groups, or it is a closing parenthesis where no
    group is open. -/
theorem scan_step {c : Char} {lexeme : Lexeme} (opening : c = '(' ↔ lexeme.token = .leftParen)
    (closing : c = ')' ↔ lexeme.token = .rightParen) (placed : place text.length = lexeme.position) :
    (∃ opened', scan (opened.map place) lexeme = .ok (opened'.map place) ∧ Opens (text ++ [c]) opened') ∨
    (scan (opened.map place) lexeme = .error (.malformed (place text.length) .unmatchedRightParen) ∧
      ∀ rest, FirstExcess (text ++ c :: rest) text.length) := by
  by_cases isParen : lexeme.token.isParen = true
  · cases token : lexeme.token with
    | leftParen =>
      obtain rfl := opening.mpr token
      refine .inl ⟨text.length :: opened, ?_, opens.opening⟩
      rw [scan_leftParen token, List.map_cons, placed]
    | rightParen =>
      obtain rfl := closing.mpr token
      cases opened with
      | nil =>
        refine .inr ⟨?_, opens.balanced.firstExcess⟩
        rw [placed]
        exact scan_rightParen_nil token
      | cons index outer => exact .inl ⟨outer, scan_rightParen_cons token _ _, opens.closing⟩
    | literal | concat | alternation | star =>
      rw [token] at isParen
      cases isParen
  · have noOpening : c ≠ '(' := fun same => isParen (by rw [opening.mp same]; rfl)
    have noClosing : c ≠ ')' := fun same => isParen (by rw [closing.mp same]; rfl)
    exact .inl ⟨opened, scan_of_not_isParen isParen _, opens.append (.singleton noOpening noClosing)⟩

/-- The scan of what follows a text either stops at the first prefix that closes
    too much or finds the groups that are left open. -/
theorem scan_cases {rest : List Char} {lexemes : List Lexeme} (outlines : Outlines rest lexemes)
    (placed : ∀ index, ∀ lexeme ∈ lexemes[index]?, place (text.length + index) = lexeme.position) :
    (∃ index, FirstExcess (text ++ rest) index ∧
      lexemes.foldlM scan (opened.map place) = .error (.malformed (place index) .unmatchedRightParen)) ∨
    ∃ opened', Opens (text ++ rest) opened' ∧ lexemes.foldlM scan (opened.map place) = .ok (opened'.map place) := by
  induction outlines generalizing text opened with
  | nil => exact .inr ⟨opened, by rwa [List.append_nil], rfl⟩
  | @cons c lexeme rest lexemes same _ ih =>
    have here : place text.length = lexeme.position := placed 0 lexeme rfl
    rcases scan_step opens same.1 same.2 here with ⟨opened', steps, opens'⟩ | ⟨stops, first⟩
    · have later := ih opens' fun index other found => by
        rw [List.length_append, List.length_singleton, Nat.add_assoc, Nat.add_comm 1]
        exact placed (index + 1) other found
      rw [← List.append_cons] at later
      rwa [foldlM_cons_of_ok steps]
    · exact .inl ⟨text.length, first rest, bind_eq_error_iff.mpr (.inl stops)⟩

end

/-- What the groups of a sequence are checked to, by a text with its
    parentheses. -/
theorem checkGroups_cases {text : List Char} {lexemes : List Lexeme} (outlines : Outlines text lexemes)
    (place : Nat → Nat) (placed : ∀ index, ∀ lexeme ∈ lexemes[index]?, place index = lexeme.position) :
    (∃ index, FirstExcess text index ∧
      checkGroups lexemes = .error (.malformed (place index) .unmatchedRightParen)) ∨
    (∃ index, NeverExcess text ∧ LastUnclosed text index ∧
      checkGroups lexemes = .error (.malformed (place index) .unmatchedLeftParen)) ∨
    (Balanced text ∧ checkGroups lexemes = .ok ()) := by
  rcases scan_cases (.closed .nil) outlines (by simpa using placed) with ⟨index, first, failed⟩ | ⟨opened, opens, passed⟩
  · exact .inl ⟨index, first, bind_eq_error_iff.mpr (.inl failed)⟩
  · cases opened with
    | nil => exact .inr (.inr ⟨opens.balanced, bind_eq_ok_iff.mpr ⟨_, passed, rfl⟩⟩)
    | cons index outer =>
      exact .inr (.inl ⟨index, opens.neverExcess, opens.lastUnclosed, bind_eq_error_iff.mpr (.inr ⟨_, passed, rfl⟩)⟩)

/-! ## The outline of a sequence -/

/-- A parenthesis as itself, and every other token as a blank. -/
def Token.groupSign : Token → Char
  | .leftParen => '('
  | .rightParen => ')'
  | .literal _ | .concat | .alternation | .star => ' '

/-- The parentheses of a sequence as a text. -/
def outline (lexemes : List Lexeme) : List Char :=
  lexemes.map (·.token.groupSign)

theorem outlines_outline (lexemes : List Lexeme) : Outlines (outline lexemes) lexemes := by
  rw [outline, Outlines, List.forall₂_map_left_iff, List.forall₂_same]
  intro lexeme _
  cases lexeme.token <;> simp [Token.groupSign]

theorem exists_of_getElem?_outline {lexemes : List Lexeme} {index : Nat} {c : Char}
    (found : (outline lexemes)[index]? = some c) : ∃ lexeme ∈ lexemes[index]?, lexeme.token.groupSign = c := by
  rw [outline, List.getElem?_map] at found
  exact Option.map_eq_some_iff.mp found

theorem Token.eq_leftParen_of_groupSign {token : Token} (sign : token.groupSign = '(') : token = .leftParen := by
  cases token with
  | leftParen => rfl
  | literal | concat | alternation | star | rightParen => simp [groupSign] at sign

theorem Token.eq_rightParen_of_groupSign {token : Token} (sign : token.groupSign = ')') : token = .rightParen := by
  cases token with
  | rightParen => rfl
  | literal | concat | alternation | star | leftParen => simp [groupSign] at sign

/-- What is wrong with the groups of a sequence, at the lexemes themselves. -/
theorem checkGroups_outline_cases (lexemes : List Lexeme) :
    (∃ index, FirstExcess (outline lexemes) index ∧ ∃ lexeme ∈ lexemes[index]?, lexeme.token = .rightParen ∧
      checkGroups lexemes = .error (.malformed lexeme.position .unmatchedRightParen)) ∨
    (∃ index, NeverExcess (outline lexemes) ∧ LastUnclosed (outline lexemes) index ∧
      ∃ lexeme ∈ lexemes[index]?, lexeme.token = .leftParen ∧
        checkGroups lexemes = .error (.malformed lexeme.position .unmatchedLeftParen)) ∨
    (Balanced (outline lexemes) ∧ checkGroups lexemes = .ok ()) := by
  let place (index : Nat) : Nat := (lexemes[index]?.map (·.position)).getD 0
  have placed (index : Nat) : ∀ lexeme ∈ lexemes[index]?, place index = lexeme.position := by
    intro lexeme found
    simp [place, Option.mem_def.mp found]
  rcases checkGroups_cases (outlines_outline lexemes) place placed with ⟨index, first, failed⟩ |
    ⟨index, never, last, failed⟩ | passed
  · obtain ⟨lexeme, found, sign⟩ := exists_of_getElem?_outline first.closes
    rw [placed index lexeme found] at failed
    exact .inl ⟨index, first, lexeme, found, Token.eq_rightParen_of_groupSign sign, failed⟩
  · obtain ⟨lexeme, found, sign⟩ := exists_of_getElem?_outline last.1.1
    rw [placed index lexeme found] at failed
    exact .inr (.inl ⟨index, never, last, lexeme, found, Token.eq_leftParen_of_groupSign sign, failed⟩)
  · exact .inr (.inr passed)

/-- The outcome of reordering any sequence: the first closing parenthesis that
    closes too much is to blame; without one, the last opening one that is never
    closed; and without one, there is an output. An operator never moves a
    parenthesis or what is below one, so the outcome depends on the parentheses
    only. -/
theorem toPostfix_outcome (lexemes : List Lexeme) :
    (∀ index, FirstExcess (outline lexemes) index → ∃ lexeme ∈ lexemes[index]?, lexeme.token = .rightParen ∧
      toPostfix lexemes = .error (.malformed lexeme.position .unmatchedRightParen)) ∧
    (∀ index, (∀ other, ¬ ExcessAt (outline lexemes) other) → LastUnclosed (outline lexemes) index →
      ∃ lexeme ∈ lexemes[index]?, lexeme.token = .leftParen ∧
        toPostfix lexemes = .error (.malformed lexeme.position .unmatchedLeftParen)) ∧
    ((∀ index, ¬ ExcessAt (outline lexemes) index) → (∀ index, ¬ UnclosedAt (outline lexemes) index) →
      ∃ output, toPostfix lexemes = .ok output) ∧
    (∀ (r : Reordering) (operator : Lexeme), 1 ≤ operator.token.precedence →
      ∃ moved below, r.waiting = moved ++ below ∧ (∀ top ∈ moved, top.token ≠ .leftParen) ∧
        r.step operator = .ok { written := r.written ++ moved, waiting := operator :: below }) ∧
    ∀ lexemes' : List Lexeme, lexemes'.filter (·.token.isParen) = lexemes.filter (·.token.isParen) →
      (toPostfix lexemes').map (fun _ => ()) = (toPostfix lexemes).map (fun _ => ()) := by
  refine ⟨fun index first => ?_, fun index noExcess last => ?_, fun noExcess noneUnclosed => ?_,
    fun r operator isOperator => r.step_operator isOperator, fun lexemes' same => ?_⟩
  · rcases checkGroups_outline_cases lexemes with ⟨index', first', lexeme, found, closes, failed⟩ | ⟨_, never, _⟩ |
      ⟨balanced, _⟩
    · rw [first.unique first']
      exact ⟨lexeme, found, closes, toPostfix_of_checkGroups_error failed⟩
    · exact absurd first.1 (neverExcess_iff.mp never index)
    · exact absurd first.1 (neverExcess_iff.mp balanced.never index)
  · rcases checkGroups_outline_cases lexemes with ⟨_, first, _⟩ | ⟨index', _, last', lexeme, found, opens, failed⟩ |
      ⟨balanced, _⟩
    · exact absurd first.1 (noExcess _)
    · rw [last.unique last']
      exact ⟨lexeme, found, opens, toPostfix_of_checkGroups_error failed⟩
    · exact absurd last.1 (balanced.not_unclosedAt index)
  · rcases checkGroups_outline_cases lexemes with ⟨_, first, _⟩ | ⟨_, _, last, _⟩ | ⟨_, passed⟩
    · exact absurd first.1 (noExcess _)
    · exact absurd last.1 (noneUnclosed _)
    · exact exists_toPostfix_of_checkGroups passed
  · rw [toPostfix_map, toPostfix_map, checkGroups, checkGroups, ← foldlM_scan_filter, same, foldlM_scan_filter]

/-- A literal is no parenthesis, whatever its character is, and operators may stand
    anywhere. -/
theorem toPostfix_outcome_literal :
    toPostfix [⟨.star, 5⟩, ⟨.leftParen, 9⟩, ⟨.literal ')', 1⟩, ⟨.concat, 2⟩] = .error (.malformed 9 .unmatchedLeftParen) ∧
      (toPostfix [⟨.concat, 2⟩, ⟨.literal '(', 1⟩, ⟨.leftParen, 9⟩]).map (fun _ => ()) =
        .error (.malformed 9 .unmatchedLeftParen) := by
  have blank : Balanced [' '] := .singleton (by decide) (by decide)
  have opens : Opens [' ', '(', ' ', ' '] [1] := .group (.closed blank) (blank.append blank)
  obtain ⟨_, lastUnclosed, _, _, others⟩ :=
    toPostfix_outcome [⟨.star, 5⟩, ⟨.leftParen, 9⟩, ⟨.literal ')', 1⟩, ⟨.concat, 2⟩]
  obtain ⟨lexeme, ⟨⟩, _, failed⟩ := lastUnclosed 1 (neverExcess_iff.mp opens.neverExcess) opens.lastUnclosed
  refine ⟨failed, (others _ rfl).trans ?_⟩
  rw [failed]
  rfl

end RegexCompiler
