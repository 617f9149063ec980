namespace RegexCompiler

/-- The label of a transition. -/
inductive Symbol where
  | literal (char : Char)
  | epsilon
deriving DecidableEq, Inhabited

namespace Symbol

/-- The character that stands for epsilon in a table. -/
def epsilonSign : Char := 'ε'

/-- Literals are ordered by code point and stand before epsilon. -/
def order : Symbol → Symbol → Ordering
  | .literal left, .literal right => compare left right
  | .literal _, .epsilon => .lt
  | .epsilon, .literal _ => .gt
  | .epsilon, .epsilon => .eq

instance : Ord Symbol := ⟨order⟩

instance : Std.TransOrd Symbol where
  eq_swap {left right} :=
    match left, right with
    | .literal _, .literal _ => Std.OrientedOrd.eq_swap (α := Char)
    | .literal _, .epsilon => rfl
    | .epsilon, .literal _ => rfl
    | .epsilon, .epsilon => rfl
  isLE_trans {first second third} left right :=
    match first, second, third with
    | .literal _, .literal _, .literal _ => Std.TransOrd.isLE_trans (α := Char) left right
    | _, .epsilon, .literal _ => (Bool.false_ne_true right).elim
    | .epsilon, .literal _, _ => (Bool.false_ne_true left).elim
    | .literal _, _, .epsilon => rfl
    | .epsilon, .epsilon, .epsilon => rfl

instance : Std.LawfulEqOrd Symbol where
  eq_of_compare {left right} same :=
    match left, right with
    | .literal _, .literal _ => congrArg Symbol.literal (Std.LawfulEqOrd.eq_of_compare same)
    | .literal _, .epsilon => Ordering.noConfusion same
    | .epsilon, .literal _ => Ordering.noConfusion same
    | .epsilon, .epsilon => rfl

/-- Whether the transition reads nothing. -/
def isEpsilon : Symbol → Bool
  | .epsilon => true
  | .literal _ => false

/-- The character that stands for the symbol in a table. -/
def toChar : Symbol → Char
  | .literal c => c
  | .epsilon => epsilonSign

end Symbol

end RegexCompiler
