import RegexCompiler.Token
import Std.Data.ExtTreeSet

namespace RegexCompiler

/-- A finite set of characters. -/
abbrev Alphabet := Std.ExtTreeSet Char

namespace Alphabet

/-- The set of the listed characters, whatever their role in an expression. -/
def ofList (chars : List Char) : Alphabet := Std.ExtTreeSet.ofList chars

/-- The literals of an expression. -/
def ofExpression (expression : String) : Alphabet :=
  ofList (expression.toList.filterMap fun c => (Token.ofChar c).literal?)

/-- Adds a character and tells whether it was not a member before. -/
def add (alphabet : Alphabet) (char : Char) : Bool × Alphabet :=
  let (known, extended) := alphabet.containsThenInsert char
  (!known, extended)

@[simp] theorem mem_ofList {chars : List Char} {char : Char} :
    char ∈ ofList chars ↔ char ∈ chars := by
  simp [ofList]

theorem nodup_toList (alphabet : Alphabet) : alphabet.toList.Nodup := by
  refine alphabet.distinct_toList.imp fun differ same => differ ?_
  rw [same]
  exact Std.ReflCmp.compare_self

theorem mem_ofExpression {expression : String} {char : Char} :
    char ∈ ofExpression expression ↔
      char ∈ expression.toList ∧ Token.ofChar char = .literal char := by
  simp only [ofExpression, mem_ofList, List.mem_filterMap]
  constructor
  · rintro ⟨c, member, found⟩
    cases role : Token.ofChar c <;> simp [role, Token.literal?] at found
    subst found
    have same := (Token.ofChar_eq_literal_iff.1 role).1
    exact ⟨same ▸ member, same ▸ role⟩
  · rintro ⟨member, role⟩
    exact ⟨char, member, by simp [role, Token.literal?]⟩

end Alphabet

end RegexCompiler
