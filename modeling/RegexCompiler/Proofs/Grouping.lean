import RegexCompiler.Token

/-!
The parentheses without a partner, said by counting, and a decomposition of a text that finds them
(`Opens.mem_iff`).
-/

namespace RegexCompiler

/-- No prefix of the text closes more groups than it opens. -/
def NeverExcess (text : List Char) : Prop :=
  ∀ n, (text.take n).count ')' ≤ (text.take n).count '('

/-- The text up to and with the character at the index closes more groups than it
    opens. -/
def ExcessAt (text : List Char) (index : Nat) : Prop :=
  index < text.length ∧ (text.take (index + 1)).count '(' < (text.take (index + 1)).count ')'

/-- The first prefix that closes more groups than it opens ends at the index. -/
def FirstExcess (text : List Char) (index : Nat) : Prop :=
  ExcessAt text index ∧ ∀ other, ExcessAt text other → index ≤ other

/-- The group that opens at the index is never closed: what follows never closes
    more groups than it opens. -/
def UnclosedAt (text : List Char) (index : Nat) : Prop :=
  text[index]? = some '(' ∧ NeverExcess (text.drop (index + 1))

/-- The index is that of the rightmost group that is never closed. -/
def LastUnclosed (text : List Char) (index : Nat) : Prop :=
  UnclosedAt text index ∧ ∀ other, UnclosedAt text other → other ≤ index

namespace NeverExcess

theorem nil : NeverExcess [] := by
  simp [NeverExcess]

theorem append {u v : List Char} (left : NeverExcess u) (right : NeverExcess v) : NeverExcess (u ++ v) := by
  intro n
  have first := left n
  have second := right (n - u.length)
  rw [List.take_append, List.count_append, List.count_append]
  omega

theorem of_append {u v : List Char} (whole : NeverExcess (u ++ v)) : NeverExcess u := by
  intro n
  rcases Nat.le_total n u.length with inside | beyond
  · have here := whole n
    rwa [List.take_append_of_le_length inside] at here
  · have here := whole u.length
    rwa [List.take_left, ← List.take_of_length_le beyond] at here

theorem count_le {text : List Char} (never : NeverExcess text) : text.count ')' ≤ text.count '(' := by
  have whole := never text.length
  rwa [List.take_length] at whole

theorem cons {c : Char} {text : List Char} (noClosing : c ≠ ')') (never : NeverExcess text) :
    NeverExcess (c :: text) := by
  intro n
  cases n with
  | zero => simp
  | succ n =>
    have rest := never n
    rw [List.take_succ_cons, List.count_cons_of_ne noClosing, List.count_cons]
    omega

end NeverExcess

theorem neverExcess_iff {text : List Char} : NeverExcess text ↔ ∀ index, ¬ ExcessAt text index := by
  constructor
  · rintro never index ⟨_, more⟩
    exact Nat.not_lt.mpr (never (index + 1)) more
  · intro none n
    induction n with
    | zero => simp
    | succ n ih =>
      by_cases inside : n < text.length
      · exact Nat.not_lt.mp fun more => none n ⟨inside, more⟩
      · rwa [List.take_of_length_le (by omega), ← List.take_of_length_le (Nat.not_lt.mp inside)]

/-! ### Balanced texts -/

/-- Every group of the text is closed, and each was opened before. -/
structure Balanced (text : List Char) : Prop where
  never : NeverExcess text
  equal : text.count ')' = text.count '('

namespace Balanced

theorem nil : Balanced [] :=
  ⟨.nil, rfl⟩

theorem append {u v : List Char} (left : Balanced u) (right : Balanced v) : Balanced (u ++ v) where
  never := left.never.append right.never
  equal := by rw [List.count_append, List.count_append, left.equal, right.equal]

theorem singleton {c : Char} (noOpening : c ≠ '(') (noClosing : c ≠ ')') : Balanced [c] where
  never := .cons noClosing .nil
  equal := by simp [noOpening, noClosing]

theorem group {inside : List Char} (balanced : Balanced inside) : Balanced ('(' :: inside ++ [')']) where
  never := by
    intro n
    cases n with
    | zero => simp
    | succ n =>
      have before := balanced.never n
      have last : ([')'].take (n - inside.length)).count ')' ≤ 1 :=
        Nat.le_trans List.count_le_length (List.length_take_le' _ _)
      rw [List.cons_append, List.take_succ_cons, List.take_append, List.count_cons_of_ne (by decide),
        List.count_cons_self, List.count_append, List.count_append]
      omega
  equal := by
    simp [balanced.equal]

/-- Groups of which each is all that the next outer one holds. -/
theorem nested (n : Nat) : Balanced (List.replicate n '(' ++ List.replicate n ')') := by
  induction n with
  | zero => exact .nil
  | succ n ih =>
    have grouped := ih.group
    rwa [← List.cons_append, ← List.replicate_succ, List.append_assoc, ← List.replicate_succ'] at grouped

theorem not_unclosedAt {text : List Char} (balanced : Balanced text) (index : Nat) : ¬ UnclosedAt text index := by
  rintro ⟨opens, never⟩
  obtain ⟨inside, isOpening⟩ := List.getElem?_eq_some_iff.mp opens
  have before := balanced.never index
  have after := never.count_le
  have equal := balanced.equal
  have parts : text = text.take index ++ '(' :: text.drop (index + 1) := by
    rw [← isOpening, ← List.drop_eq_getElem_cons inside, List.take_append_drop]
  rw [parts, List.count_append, List.count_append, List.count_cons_self, List.count_cons_of_ne (by decide)] at equal
  omega

theorem firstExcess {text : List Char} (balanced : Balanced text) (rest : List Char) :
    FirstExcess (text ++ ')' :: rest) text.length := by
  have equal := balanced.equal
  refine ⟨⟨by simp, ?_⟩, ?_⟩
  · have upTo : (text ++ ')' :: rest).take (text.length + 1) = text ++ [')'] := by
      rw [List.take_append, List.take_of_length_le (Nat.le_succ _), Nat.add_sub_cancel_left]
      rfl
    simp [upTo, equal]
  · rintro other ⟨_, more⟩
    rcases Nat.lt_or_ge other text.length with before | behind
    · rw [List.take_append_of_le_length before] at more
      exact absurd (balanced.never (other + 1)) (Nat.not_le.mpr more)
    · exact behind

end Balanced

/-! ### Open groups -/

/-- The text never closes more groups than it opens, and the listed ones, latest
    first, are still open at its end. -/
inductive Opens : List Char → List Nat → Prop where
  | closed {text : List Char} : Balanced text → Opens text []
  | group {text inside : List Char} {opened : List Nat} :
    Opens text opened → Balanced inside → Opens (text ++ '(' :: inside) (text.length :: opened)

theorem unclosedAt_append_of_lt {text rest : List Char} {index : Nat} (never : NeverExcess rest)
    (before : index < text.length) : UnclosedAt (text ++ rest) index ↔ UnclosedAt text index := by
  rw [UnclosedAt, UnclosedAt, List.getElem?_append_left before, List.drop_append_of_le_length before]
  refine and_congr_right fun _ => ⟨NeverExcess.of_append, fun own => own.append never⟩

theorem unclosedAt_append_of_le {text rest : List Char} {index : Nat} (behind : text.length ≤ index) :
    UnclosedAt (text ++ rest) index ↔ UnclosedAt rest (index - text.length) := by
  rw [UnclosedAt, UnclosedAt, List.getElem?_append_right behind, List.drop_append, List.drop_eq_nil_of_le (by omega),
    List.nil_append, Nat.sub_add_comm behind]

namespace Opens

theorem append {text balanced : List Char} {opened : List Nat} (opens : Opens text opened) (rest : Balanced balanced) :
    Opens (text ++ balanced) opened := by
  cases opens with
  | closed own => exact .closed (own.append rest)
  | group outer inside =>
    rw [List.append_assoc, List.cons_append]
    exact .group outer (inside.append rest)

theorem balanced {text : List Char} (opens : Opens text []) : Balanced text := by
  cases opens with
  | closed balanced => exact balanced

theorem opening {text : List Char} {opened : List Nat} (opens : Opens text opened) :
    Opens (text ++ ['(']) (text.length :: opened) :=
  .group opens .nil

theorem closing {text : List Char} {index : Nat} {opened : List Nat} (opens : Opens text (index :: opened)) :
    Opens (text ++ [')']) opened := by
  cases opens with
  | group outer inside =>
    rw [List.append_assoc]
    exact outer.append inside.group

theorem neverExcess {text : List Char} {opened : List Nat} (opens : Opens text opened) : NeverExcess text := by
  induction opens with
  | closed balanced => exact balanced.never
  | group _ inside ih => exact ih.append (.cons (by decide) inside.never)

/-- The open groups are those that are never closed. -/
theorem mem_iff {text : List Char} {opened : List Nat} (opens : Opens text opened) (index : Nat) :
    index ∈ opened ↔ UnclosedAt text index := by
  induction opens with
  | closed balanced => simpa using balanced.not_unclosedAt index
  | @group text inside opened outer balanced ih =>
    have rest : NeverExcess ('(' :: inside) := .cons (by decide) balanced.never
    rw [List.mem_cons, ih]
    rcases Nat.lt_trichotomy index text.length with before | rfl | behind
    · rw [unclosedAt_append_of_lt rest before]
      exact or_iff_right (Nat.ne_of_lt before)
    · rw [unclosedAt_append_of_le (Nat.le_refl _), Nat.sub_self]
      exact iff_of_true (.inl rfl) ⟨rfl, balanced.never⟩
    · have outside : ¬ UnclosedAt text index := fun unclosed =>
        Nat.lt_asymm behind (List.getElem?_eq_some_iff.mp unclosed.1).1
      have deeper : ¬ UnclosedAt ('(' :: inside) (index - text.length) := by
        obtain ⟨depth, same⟩ : ∃ depth, index - text.length = depth + 1 := ⟨index - text.length - 1, by omega⟩
        rw [same]
        exact balanced.not_unclosedAt depth
      rw [unclosedAt_append_of_le (Nat.le_of_lt behind)]
      exact iff_of_false (by simp [outside, Nat.ne_of_gt behind]) deeper

theorem lastUnclosed {text : List Char} {index : Nat} {opened : List Nat} (opens : Opens text (index :: opened)) :
    LastUnclosed text index := by
  refine ⟨(opens.mem_iff index).mp (.head _), fun other unclosed => ?_⟩
  have member := (opens.mem_iff other).mpr unclosed
  cases opens with
  | @group text inside _ outer _ =>
    rcases List.mem_cons.mp member with rfl | earlier
    · exact Nat.le_refl _
    · have here := ((outer.mem_iff other).mp earlier).1
      exact Nat.le_of_lt (List.getElem?_eq_some_iff.mp here).1

end Opens

/-! ### Places to blame -/

theorem FirstExcess.closes {text : List Char} {index : Nat} (first : FirstExcess text index) :
    text[index]? = some ')' := by
  obtain ⟨⟨inside, more⟩, least⟩ := first
  have before : (text.take index).count ')' ≤ (text.take index).count '(' := by
    cases index with
    | zero => simp
    | succ n => exact Nat.not_lt.mp fun excess => Nat.not_succ_le_self n (least n ⟨Nat.lt_of_succ_lt inside, excess⟩)
  rw [List.take_succ_eq_append_getElem inside, List.count_append, List.count_append] at more
  by_cases closes : text[index] = ')'
  · rw [List.getElem?_eq_getElem inside, closes]
  · have none : [text[index]].count ')' = 0 := List.count_eq_zero.mpr (by simpa using Ne.symm closes)
    omega

theorem FirstExcess.unique {text : List Char} {index index' : Nat} (first : FirstExcess text index)
    (first' : FirstExcess text index') : index = index' :=
  Nat.le_antisymm (first.2 index' first'.1) (first'.2 index first.1)

theorem LastUnclosed.unique {text : List Char} {index index' : Nat} (last : LastUnclosed text index)
    (last' : LastUnclosed text index') : index = index' :=
  Nat.le_antisymm (last'.2 index last.1) (last.2 index' last'.1)

end RegexCompiler
