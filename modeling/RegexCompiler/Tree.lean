import RegexCompiler.Lexeme

namespace RegexCompiler

/-- An expression without regard to how it is written. -/
inductive Tree where
  | literal (char : Char)
  | concat (first second : Tree)
  | alternation (left right : Tree)
  | star (inner : Tree)
deriving DecidableEq

namespace Tree

/-- The words that an expression stands for. -/
inductive Matches : Tree → List Char → Prop where
  | literal (char : Char) : Matches (.literal char) [char]
  | concat {first second : Tree} {u v : List Char} :
    Matches first u → Matches second v → Matches (.concat first second) (u ++ v)
  | left {left right : Tree} {w : List Char} : Matches left w → Matches (.alternation left right) w
  | right {left right : Tree} {w : List Char} : Matches right w → Matches (.alternation left right) w
  | stop (inner : Tree) : Matches (.star inner) []
  | again {inner : Tree} {u v : List Char} :
    Matches inner u → Matches (.star inner) v → Matches (.star inner) (u ++ v)

theorem matches_concat_iff {first second : Tree} {w : List Char} :
    Matches (.concat first second) w ↔ ∃ u v, Matches first u ∧ Matches second v ∧ u ++ v = w := by
  constructor
  · intro whole
    cases whole with
    | concat before after => exact ⟨_, _, before, after, rfl⟩
  · rintro ⟨u, v, before, after, rfl⟩
    exact .concat before after

theorem matches_alternation_iff {left right : Tree} {w : List Char} :
    Matches (.alternation left right) w ↔ Matches left w ∨ Matches right w := by
  constructor
  · intro whole
    cases whole with
    | left inside => exact .inl inside
    | right inside => exact .inr inside
  · rintro (inside | inside)
    · exact .left inside
    · exact .right inside

/-- The tokens of an expression, every operator after its operands. -/
def postorder : Tree → List Token
  | .literal char => [.literal char]
  | .concat first second => first.postorder ++ second.postorder ++ [.concat]
  | .alternation left right => left.postorder ++ right.postorder ++ [.alternation]
  | .star inner => inner.postorder ++ [.star]

end Tree

/-- An expression whose literals and operators have places in a text. -/
inductive PlacedTree where
  | literal (char : Char) (position : Nat)
  | concat (position : Nat) (first second : PlacedTree)
  | alternation (position : Nat) (left right : PlacedTree)
  | star (position : Nat) (inner : PlacedTree)
deriving DecidableEq

namespace PlacedTree

/-- The expression without its places. -/
def tree : PlacedTree → Tree
  | .literal char _ => .literal char
  | .concat _ first second => .concat first.tree second.tree
  | .alternation _ left right => .alternation left.tree right.tree
  | .star _ inner => .star inner.tree

/-- The lexemes of an expression, every operator after its operands. -/
def postorder : PlacedTree → List Lexeme
  | .literal char position => [⟨.literal char, position⟩]
  | .concat position first second => first.postorder ++ second.postorder ++ [⟨.concat, position⟩]
  | .alternation position left right => left.postorder ++ right.postorder ++ [⟨.alternation, position⟩]
  | .star position inner => inner.postorder ++ [⟨.star, position⟩]

@[simp] theorem map_token_postorder (placed : PlacedTree) :
    placed.postorder.map (·.token) = placed.tree.postorder := by
  induction placed with
  | literal => rfl
  | concat _ _ _ first second => simp [postorder, tree, Tree.postorder, first, second]
  | alternation _ _ _ left right => simp [postorder, tree, Tree.postorder, left, right]
  | star _ _ inner => simp [postorder, tree, Tree.postorder, inner]

end PlacedTree

end RegexCompiler
