import RegexCompiler.Tree

/-!
The star binds more strongly than concatenation and this more strongly than alternation; both binary
operators group to the left.
-/

namespace RegexCompiler

/-- What a part of an expression can be, by how strongly it holds together. -/
inductive Category where
  | expression
  | term
  | factor
  | atom
deriving DecidableEq

/-- The text, which starts at a position of the whole expression, is of a
    category and has a tree. A concatenation without a sign stands where its
    second operand begins. -/
inductive Parses : Category → Nat → List Char → PlacedTree → Prop where
  | ofTerm {i : Nat} {w : List Char} {t : PlacedTree} :
    Parses .term i w t → Parses .expression i w t
  | alternation {i : Nat} {u v : List Char} {left right : PlacedTree} :
    Parses .expression i u left → Parses .term (i + u.length + 1) v right →
      Parses .expression i (u ++ '|' :: v) (.alternation (i + u.length) left right)
  | ofFactor {i : Nat} {w : List Char} {t : PlacedTree} :
    Parses .factor i w t → Parses .term i w t
  | juxtaposition {i : Nat} {u v : List Char} {first second : PlacedTree} :
    Parses .term i u first → Parses .factor (i + u.length) v second →
      Parses .term i (u ++ v) (.concat (i + u.length) first second)
  | concat {i : Nat} {u v : List Char} {first second : PlacedTree} :
    Parses .term i u first → Parses .factor (i + u.length + 1) v second →
      Parses .term i (u ++ Token.concatSign :: v) (.concat (i + u.length) first second)
  | ofAtom {i : Nat} {w : List Char} {t : PlacedTree} :
    Parses .atom i w t → Parses .factor i w t
  | star {i : Nat} {w : List Char} {inner : PlacedTree} :
    Parses .factor i w inner → Parses .factor i (w ++ ['*']) (.star (i + w.length) inner)
  | literal {i : Nat} {c : Char} :
    Token.ofChar c = .literal c → Parses .atom i [c] (.literal c i)
  | group {i : Nat} {w : List Char} {t : PlacedTree} :
    Parses .expression (i + 1) w t → Parses .atom i ('(' :: w ++ [')']) t

theorem Parses.join {i : Nat} {u v sign : List Char} {first second : PlacedTree} (left : Parses .term i u first)
    (isSign : sign = [] ∨ sign = [Token.concatSign])
    (right : Parses .factor (i + u.length + sign.length) v second) :
    Parses .term i (u ++ sign ++ v) (.concat (i + u.length) first second) := by
  rcases isSign with rfl | rfl
  · rw [List.append_nil]
    exact .juxtaposition left right
  · rw [List.append_assoc]
    exact .concat left right

/-- The text prints a tree where an operator must bind at least as strongly as
    `level` or stand in parentheses; more parentheses are allowed anywhere, and
    a concatenation may have a sign or not. -/
inductive Renders : Nat → Tree → List Char → Prop where
  | literal {level : Nat} {c : Char} :
    Token.ofChar c = .literal c → Renders level (.literal c) [c]
  | star {level : Nat} {inner : Tree} {w : List Char} : level ≤ Token.star.precedence →
    Renders Token.star.precedence inner w → Renders level (.star inner) (w ++ ['*'])
  | juxtaposition {level : Nat} {first second : Tree} {u v : List Char} : level ≤ Token.concat.precedence →
    Renders Token.concat.precedence first u → Renders Token.concat.precedence second v →
      Renders level (.concat first second) (u ++ v)
  | concat {level : Nat} {first second : Tree} {u v : List Char} : level ≤ Token.concat.precedence →
    Renders Token.concat.precedence first u → Renders Token.concat.precedence second v →
      Renders level (.concat first second) (u ++ Token.concatSign :: v)
  | alternation {level : Nat} {left right : Tree} {u v : List Char} : level ≤ Token.alternation.precedence →
    Renders Token.alternation.precedence left u → Renders Token.alternation.precedence right v →
      Renders level (.alternation left right) (u ++ '|' :: v)
  | group {level : Nat} {t : Tree} {w : List Char} :
    Renders 0 t w → Renders level t ('(' :: w ++ [')'])

end RegexCompiler
