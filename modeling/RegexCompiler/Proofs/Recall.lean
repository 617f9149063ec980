import RegexCompiler.Proofs.Levels
import RegexCompiler.Proofs.Literals

/-! Expressions for which every word over two letters, up to a length, leads to a set of its own. -/

namespace RegexCompiler

namespace Recall

/-! ## Expressions that recall a word -/

def letters : List Char := ['a', 'b']

def letter : Tree := .alternation (.literal 'a') (.literal 'b')

/-- Some letters, and then a sign. -/
def skip (sign : Char) : Nat → Tree
  | 0 => .literal sign
  | count + 1 => .concat letter (skip sign count)

/-- As many letters as there are signs. At the end there may stand the sign of any place at
    which the letter was an `a`; else the word ends with `stop`, or with `detour` and one
    more sign. -/
def tree (detour stop : Char) : List Char → Tree
  | [] => .alternation (.concat (.literal detour) (.literal 'c')) (.literal stop)
  | sign :: signs =>
    .alternation (.concat (.literal 'a') (skip sign signs.length)) (.concat letter (tree detour stop signs))

def skipText (sign : Char) : Nat → List Char
  | 0 => [sign]
  | count + 1 => ['(', 'a', '|', 'b', ')'] ++ skipText sign count

/-- The text of the expression. -/
def text (detour stop : Char) : List Char → List Char
  | [] => ['(', detour, 'c', '|', stop, ')']
  | sign :: signs =>
    '(' :: ('a' :: skipText sign signs.length ++
      '|' :: (['(', 'a', '|', 'b', ')'] ++ text detour stop signs)) ++ [')']

theorem renders_letter (level : Nat) : Renders level letter ['(', 'a', '|', 'b', ')'] :=
  .group (.alternation (by decide) (.literal rfl) (.literal rfl) : Renders 0 letter (['a'] ++ '|' :: ['b']))

theorem renders_skip {sign : Char} (plain : Token.ofChar sign = .literal sign) (count : Nat) :
    Renders 2 (skip sign count) (skipText sign count) := by
  induction count with
  | zero => exact .literal plain
  | succ count ih => exact .juxtaposition (by decide) (renders_letter 2) ih

theorem renders_tree {detour stop : Char} {signs : List Char}
    (plain : ∀ sign ∈ signs ++ [detour, 'c', stop], Token.ofChar sign = .literal sign) (level : Nat) :
    Renders level (tree detour stop signs) (text detour stop signs) := by
  induction signs generalizing level with
  | nil =>
    have aside : Renders 1 (.concat (.literal detour) (.literal 'c')) ([detour] ++ ['c']) :=
      .juxtaposition (by decide) (.literal (plain detour (by simp))) (.literal rfl)
    exact .group (.alternation (by decide) aside (.literal (plain stop (by simp))))
  | cons sign signs ih =>
    have marked : Renders 1 (.concat (.literal 'a') (skip sign signs.length)) (['a'] ++ skipText sign signs.length) :=
      .juxtaposition (by decide) (.literal rfl) (renders_skip (plain sign (by simp)) _)
    have later := ih (fun s member => plain s (.tail _ member)) 2
    exact .group (.alternation (by decide) marked (.juxtaposition (by decide) (renders_letter 2) later))

/-! ## Their words -/

/-- What may follow a word of letters. -/
def Ends (detour stop : Char) (signs word ending : List Char) : Prop :=
  ending = [detour, 'c'] ∨ ending = [stop] ∨ ∃ sign, ending = [sign] ∧ ('a', sign) ∈ word.zip signs

theorem ends_cons_iff {detour stop sign c : Char} {signs word ending : List Char} :
    Ends detour stop (sign :: signs) (c :: word) ending ↔
      c = 'a' ∧ ending = [sign] ∨ Ends detour stop signs word ending := by
  simp only [Ends, List.zip_cons_cons, List.mem_cons, Prod.mk.injEq]
  constructor
  · rintro (detours | stops | ⟨s, rfl, ⟨rfl, rfl⟩ | later⟩)
    · exact .inr (.inl detours)
    · exact .inr (.inr (.inl stops))
    · exact .inl ⟨rfl, rfl⟩
    · exact .inr (.inr (.inr ⟨s, rfl, later⟩))
  · rintro (⟨rfl, rfl⟩ | detours | stops | ⟨s, rfl, later⟩)
    · exact .inr (.inr ⟨sign, rfl, .inl ⟨rfl, rfl⟩⟩)
    · exact .inl detours
    · exact .inr (.inl stops)
    · exact .inr (.inr ⟨s, rfl, .inr later⟩)

theorem matches_literal_iff {char : Char} {w : List Char} : (Tree.literal char).Matches w ↔ w = [char] := by
  constructor
  · intro whole
    cases whole
    rfl
  · rintro rfl
    exact .literal char

theorem matches_letter_iff {w : List Char} : letter.Matches w ↔ ∃ c ∈ letters, w = [c] := by
  simp [letter, letters, Tree.matches_alternation_iff, matches_literal_iff]

theorem matches_skip_iff {sign : Char} {count : Nat} {w : List Char} :
    (skip sign count).Matches w ↔ ∃ u, u.length = count ∧ (∀ c ∈ u, c ∈ letters) ∧ w = u ++ [sign] := by
  induction count generalizing w with
  | zero => simp [skip, matches_literal_iff]
  | succ count ih =>
    simp only [skip, Tree.matches_concat_iff, matches_letter_iff, ih]
    constructor
    · rintro ⟨_, _, ⟨c, listed, rfl⟩, ⟨u, rfl, inside, rfl⟩, rfl⟩
      exact ⟨c :: u, rfl, List.forall_mem_cons.mpr ⟨listed, inside⟩, rfl⟩
    · rintro ⟨u, long, inside, rfl⟩
      cases u with
      | nil => cases long
      | cons c u =>
        rw [List.forall_mem_cons] at inside
        exact ⟨_, _, ⟨c, inside.1, rfl⟩, ⟨u, Nat.succ.inj long, inside.2, rfl⟩, rfl⟩

theorem matches_tree_iff {detour stop : Char} {signs w : List Char} :
    (tree detour stop signs).Matches w ↔
      ∃ u z, u.length = signs.length ∧ (∀ c ∈ u, c ∈ letters) ∧ Ends detour stop signs u z ∧ w = u ++ z := by
  induction signs generalizing w with
  | nil =>
    simp only [tree, Tree.matches_alternation_iff, Tree.matches_concat_iff, matches_literal_iff, Ends]
    constructor
    · rintro (⟨_, _, rfl, rfl, rfl⟩ | rfl)
      · exact ⟨[], _, rfl, by simp, .inl rfl, rfl⟩
      · exact ⟨[], _, rfl, by simp, .inr (.inl rfl), rfl⟩
    · rintro ⟨u, z, long, _, ends, rfl⟩
      obtain rfl := List.length_eq_zero_iff.mp long
      rcases ends with rfl | rfl | ⟨_, _, none⟩
      · exact .inl ⟨_, _, rfl, rfl, rfl⟩
      · exact .inr rfl
      · cases none
  | cons sign signs ih =>
    simp only [tree, Tree.matches_alternation_iff, Tree.matches_concat_iff, matches_literal_iff, matches_letter_iff,
      matches_skip_iff, ih]
    constructor
    · rintro (⟨_, _, rfl, ⟨u, long, inside, rfl⟩, rfl⟩ | ⟨_, _, ⟨c, listed, rfl⟩, ⟨u, z, long, inside, ends, rfl⟩, rfl⟩)
      · refine ⟨'a' :: u, [sign], congrArg Nat.succ long, List.forall_mem_cons.mpr ⟨.head _, inside⟩, ?_, rfl⟩
        exact ends_cons_iff.mpr (.inl ⟨rfl, rfl⟩)
      · refine ⟨c :: u, z, congrArg Nat.succ long, List.forall_mem_cons.mpr ⟨listed, inside⟩, ?_, rfl⟩
        exact ends_cons_iff.mpr (.inr ends)
    · rintro ⟨u, z, long, inside, ends, rfl⟩
      cases u with
      | nil => cases long
      | cons c u =>
        rw [List.forall_mem_cons] at inside
        rcases ends_cons_iff.mp ends with ⟨rfl, rfl⟩ | ends
        · exact .inl ⟨['a'], u ++ [sign], rfl, ⟨u, Nat.succ.inj long, inside.2, rfl⟩, rfl⟩
        · exact .inr ⟨[c], u ++ z, ⟨c, inside.1, rfl⟩, ⟨u, z, Nat.succ.inj long, inside.2, ends, rfl⟩, rfl⟩

theorem filter_literals {detour stop : Char} {signs : List Char}
    (apart : ∀ sign ∈ signs ++ [detour, 'c', stop], sign ∉ letters) :
    (tree detour stop signs).literals.filter (· ∉ letters) = signs ++ [detour, 'c', stop] := by
  have skipped (sign : Char) (isSign : sign ∉ letters) (count : Nat) :
      (skip sign count).literals.filter (· ∉ letters) = [sign] := by
    induction count with
    | zero => simp [skip, Tree.literals, isSign]
    | succ count ih => simpa [skip, Tree.literals, letter, letters] using ih
  induction signs with
  | nil =>
    exact List.filter_eq_self.mpr fun sign member => decide_eq_true (apart sign member)
  | cons sign signs ih =>
    have later := ih fun s member => apart s (.tail _ member)
    have marked := skipped sign (apart sign (by simp)) signs.length
    have plain : letter.literals.filter (· ∉ letters) = [] := by decide
    have mark : ['a'].filter (· ∉ letters) = [] := by decide
    simp only [tree, Tree.literals, List.filter_append, marked, later, plain, mark]
    rfl

/-! ## Their sets -/

/-- Words are told apart by the signs of the places at which they have an `a`. -/
theorem eq_of_zip {signs u v : List Char} (distinct : signs.Nodup) (long : u.length = signs.length)
    (long' : v.length = signs.length) (inside : ∀ c ∈ u, c ∈ letters) (inside' : ∀ c ∈ v, c ∈ letters)
    (same : ∀ sign ∈ signs, ('a', sign) ∈ u.zip signs ↔ ('a', sign) ∈ v.zip signs) : u = v := by
  induction signs generalizing u v with
  | nil => rw [List.length_eq_zero_iff.mp long, List.length_eq_zero_iff.mp long']
  | cons sign signs ih =>
    match u, v, long, long' with
    | c :: u, d :: v, long, long' =>
      rw [List.nodup_cons] at distinct
      rw [List.forall_mem_cons] at inside inside'
      simp only [List.zip_cons_cons, List.mem_cons, Prod.mk.injEq] at same
      have elsewhere (w : List Char) : ('a', sign) ∉ w.zip signs := fun member => distinct.1 (List.of_mem_zip member).2
      have first : c = d := by
        have heads := same sign (.inl rfl)
        simp only [elsewhere, or_false, and_true] at heads
        have letter := inside.1
        have letter' := inside'.1
        simp only [letters, List.mem_cons, List.not_mem_nil, or_false] at letter letter'
        grind
      rw [first, ih distinct.2 (Nat.succ.inj long) (Nat.succ.inj long') inside.2 inside'.2]
      intro s member
      have other : s ≠ sign := fun same => distinct.1 (same ▸ member)
      simpa [other] using same s (.inr member)

theorem append_inj {u u' z z' : List Char} (inside : ∀ c ∈ u, c ∈ letters) (inside' : ∀ c ∈ u', c ∈ letters)
    (outside : ∀ c ∈ z, c ∉ letters) (outside' : ∀ c ∈ z', c ∉ letters) (same : u ++ z = u' ++ z') : u = u' ∧ z = z' := by
  have front (u z : List Char) (inside : ∀ c ∈ u, c ∈ letters) (outside : ∀ c ∈ z, c ∉ letters) :
      (u ++ z).filter (· ∈ letters) = u := by
    have kept : u.filter (· ∈ letters) = u := List.filter_eq_self.mpr fun c member => decide_eq_true (inside c member)
    have gone : z.filter (· ∈ letters) = [] :=
      List.filter_eq_nil_iff.mpr fun c member => by simpa using outside c member
    rw [List.filter_append, kept, gone, List.append_nil]
  have fronts : u = u' := by rw [← front u z inside outside, same, front u' z' inside' outside']
  subst fronts
  exact ⟨rfl, List.append_cancel_left same⟩

theorem replicate_inside {c : Char} (letter : c ∈ letters) (count : Nat) : ∀ d ∈ List.replicate count c, d ∈ letters :=
  List.forall_mem_replicate.mpr (.inr letter)

theorem length_padded {u : List Char} {count : Nat} (short : u.length ≤ count) :
    (u ++ List.replicate (count - u.length) 'b').length = count := by
  rw [List.length_append, List.length_replicate, Nat.add_sub_cancel' short]

theorem padded_inside {u : List Char} (inside : ∀ c ∈ u, c ∈ letters) (count : Nat) :
    ∀ c ∈ u ++ List.replicate count 'b', c ∈ letters :=
  List.forall_mem_append.mpr ⟨inside, replicate_inside (by decide) count⟩

theorem Ends.mem_signs {detour stop : Char} {signs u z : List Char} (ends : Ends detour stop signs u z) :
    ∀ c ∈ z, c ∈ signs ++ [detour, 'c', stop] := by
  rcases ends with rfl | rfl | ⟨sign, rfl, marked⟩
  · simp
  · simp
  · simp [(List.of_mem_zip marked).2]

theorem length_filter_le {detour stop : Char} {signs w : List Char} (inLanguage : (tree detour stop signs).Matches w) :
    (w.filter (· ∉ letters)).length ≤ 2 := by
  obtain ⟨u, z, _, inside, ends, rfl⟩ := matches_tree_iff.mp inLanguage
  have none : u.filter (· ∉ letters) = [] := List.filter_eq_nil_iff.mpr fun c member => by simpa using inside c member
  rw [List.filter_append, none, List.nil_append]
  refine (List.length_filter_le _ z).trans ?_
  rcases ends with rfl | rfl | ⟨sign, rfl, _⟩ <;> simp

section

variable {detour stop : Char} {signs : List Char} (apart : ∀ sign ∈ signs ++ [detour, 'c', stop], sign ∉ letters)
include apart

theorem Ends.not_mem_letters {u z : List Char} (ends : Ends detour stop signs u z) : ∀ c ∈ z, c ∉ letters :=
  fun c member => apart c (ends.mem_signs c member)

theorem matches_append_iff {u z : List Char} (inside : ∀ c ∈ u, c ∈ letters) (outside : ∀ c ∈ z, c ∉ letters) :
    (tree detour stop signs).Matches (u ++ z) ↔ u.length = signs.length ∧ Ends detour stop signs u z := by
  rw [matches_tree_iff]
  constructor
  · rintro ⟨u', z', long, inside', ends, same⟩
    obtain ⟨rfl, rfl⟩ := append_inj inside inside' outside (ends.not_mem_letters apart) same
    exact ⟨long, ends⟩
  · rintro ⟨long, ends⟩
    exact ⟨u, z, long, inside, ends, rfl⟩

end

end Recall

namespace Nfa

theorem accepts_append_congr {nfa : Nfa} {u v : List Char} (same : nfa.simulate u = nfa.simulate v) (w : List Char) :
    nfa.accepts (u ++ w) = nfa.accepts (v ++ w) := by
  have onward (u : List Char) : nfa.simulate (u ++ w) = w.foldl nfa.advance (nfa.simulate u) := List.foldl_append
  rw [Bool.eq_iff_iff, accepts_iff, accepts_iff, onward, onward, same]

theorem simulate_ne_empty_of_accepts {nfa : Nfa} {u v : List Char} (accepted : nfa.accepts (u ++ v) = true) :
    nfa.simulate u ≠ ∅ := by
  intro none
  have onward : nfa.simulate (u ++ v) = v.foldl nfa.advance (nfa.simulate u) := List.foldl_append
  rw [accepts_iff, onward, none, foldl_advance_empty] at accepted
  exact StateSet.not_mem_empty _ accepted

/-- An automaton for the words of such an expression. From every set it goes on to an
    accepted word, and no sign leads to two sets. -/
structure Recalls (nfa : Nfa) (detour stop : Char) (signs : List Char) : Prop where
  apart : ∀ sign ∈ signs ++ [detour, 'c', stop], sign ∉ Recall.letters
  distinct : (signs ++ [detour, 'c', stop]).Nodup
  accepts_iff : ∀ word, nfa.accepts word = true ↔ (Recall.tree detour stop signs).Matches word
  alive : ∀ u, nfa.simulate u ≠ ∅ → ∃ v, nfa.accepts (u ++ v) = true
  once : ∀ u v c, c ∉ Recall.letters → nfa.simulate (u ++ [c]) ≠ ∅ → nfa.simulate (v ++ [c]) ≠ ∅ →
    nfa.simulate (u ++ [c]) = nfa.simulate (v ++ [c])

namespace Recalls
open Recall

variable {nfa : Nfa} {detour stop : Char} {signs : List Char} (recalls : nfa.Recalls detour stop signs)
include recalls

theorem stop_outside : ∀ c ∈ [stop], c ∉ letters := by
  simpa using recalls.apart stop (by simp)

theorem stop_ne {sign : Char} (member : sign ∈ signs) : sign ≠ stop :=
  (List.nodup_append.mp recalls.distinct).2.2 sign member stop (by simp)

theorem detour_ne {sign : Char} (member : sign ∈ signs) : sign ≠ detour :=
  (List.nodup_append.mp recalls.distinct).2.2 sign member detour (by simp)

theorem accepts_append_iff {u z : List Char} (inside : ∀ c ∈ u, c ∈ letters) (outside : ∀ c ∈ z, c ∉ letters) :
    nfa.accepts (u ++ z) = true ↔ u.length = signs.length ∧ Ends detour stop signs u z :=
  (recalls.accepts_iff _).trans (matches_append_iff recalls.apart inside outside)

/-- What leads to a set is a word of letters that is not too long, or goes on without
    letters behind a word of the full length. -/
theorem cases_of_simulate {w : List Char} (active : nfa.simulate w ≠ ∅) :
    (w.length ≤ signs.length ∧ ∀ c ∈ w, c ∈ letters) ∨
      ∃ u z, w = u ++ z ∧ u.length = signs.length ∧ z ≠ [] ∧ ∀ c ∈ z, c ∈ signs ++ [detour, 'c', stop] := by
  obtain ⟨v, accepted⟩ := recalls.alive w active
  obtain ⟨u, z, long, inside, ends, whole⟩ := matches_tree_iff.mp ((recalls.accepts_iff _).mp accepted)
  rcases List.append_eq_append_iff.mp whole with ⟨u', rfl, _⟩ | ⟨z', rfl, rfl⟩
  · refine .inl ⟨?_, (List.forall_mem_append.mp inside).1⟩
    rw [← long, List.length_append]
    exact Nat.le_add_right _ _
  · by_cases none : z' = []
    · subst none
      exact .inl (by simpa [long] using inside)
    · exact .inr ⟨u, z', rfl, long, none, fun c member => ends.mem_signs c (List.mem_append_left _ member)⟩

theorem accepts_padded {u z : List Char} (short : u.length ≤ signs.length) (inside : ∀ c ∈ u, c ∈ letters)
    (outside : ∀ c ∈ z, c ∉ letters) :
    nfa.accepts (u ++ (List.replicate (signs.length - u.length) 'b' ++ z)) = true ↔
      Ends detour stop signs (u ++ List.replicate (signs.length - u.length) 'b') z := by
  rw [← List.append_assoc, recalls.accepts_append_iff (padded_inside inside _) outside]
  exact and_iff_right (length_padded short)

theorem simulate_ne_empty {u : List Char} (short : u.length ≤ signs.length) (inside : ∀ c ∈ u, c ∈ letters) :
    nfa.simulate u ≠ ∅ :=
  simulate_ne_empty_of_accepts ((recalls.accepts_padded short inside recalls.stop_outside).mpr (.inr (.inl rfl)))

/-- Shorter words go on with the letters only. -/
theorem advance_ne_empty_iff {w : List Char} (short : w.length < signs.length) (inside : ∀ c ∈ w, c ∈ letters) {c : Char} :
    nfa.advance (nfa.simulate w) c ≠ ∅ ↔ c ∈ letters := by
  rw [← nfa.simulate_concat]
  constructor
  · intro active
    rcases recalls.cases_of_simulate active with ⟨_, inside'⟩ | ⟨u, z, whole, long, none, _⟩
    · exact inside' c (by simp)
    · have lengths := congrArg List.length whole
      have more := List.length_pos_iff.mpr none
      rw [List.length_append, List.length_append, List.length_singleton] at lengths
      omega
  · intro letter
    refine recalls.simulate_ne_empty ?_ (List.forall_mem_append.mpr ⟨inside, by simpa using letter⟩)
    rw [List.length_append]
    exact short

section

variable {u v : List Char} (short : u.length ≤ signs.length) (inside : ∀ c ∈ u, c ∈ letters)
  (inside' : ∀ c ∈ v, c ∈ letters) (same : nfa.simulate u = nfa.simulate v)
include short inside inside' same

/-- What makes one word long enough does so for the other one. -/
theorem length_eq_of_simulate_eq : u.length = v.length := by
  have accepted := (recalls.accepts_padded short inside recalls.stop_outside).mpr (.inr (.inl rfl))
  rw [accepts_append_congr same, ← List.append_assoc,
    recalls.accepts_append_iff (padded_inside inside' _) recalls.stop_outside] at accepted
  have long := accepted.1
  rw [List.length_append, List.length_replicate] at long
  omega

theorem eq_of_simulate_eq : u = v := by
  have lengths := recalls.length_eq_of_simulate_eq short inside inside' same
  have short' : v.length ≤ signs.length := lengths ▸ short
  have marks {sign : Char} (member : sign ∈ signs) (w : List Char) :
      Ends detour stop signs w [sign] ↔ ('a', sign) ∈ w.zip signs := by
    simp [Ends, recalls.stop_ne member]
  have padded : u ++ List.replicate (signs.length - u.length) 'b' = v ++ List.replicate (signs.length - v.length) 'b' := by
    refine eq_of_zip (List.nodup_append.mp recalls.distinct).1 (length_padded short) (length_padded short')
      (padded_inside inside _) (padded_inside inside' _) fun sign member => ?_
    have outside : ∀ c ∈ [sign], c ∉ letters := by
      simpa using recalls.apart sign (List.mem_append_left _ member)
    rw [← marks member, ← marks member, ← recalls.accepts_padded short inside outside,
      ← recalls.accepts_padded short' inside' outside, accepts_append_congr same, lengths]
  rw [lengths] at padded
  exact List.append_cancel_right padded

end

/-- After a sign, no set is that of a word of letters: only there it may go on with the
    detour, which has two signs. -/
theorem simulate_sign_ne {u v : List Char} {c : Char} (outside : c ∉ letters) (short : v.length ≤ signs.length)
    (inside : ∀ c ∈ v, c ∈ letters) : nfa.simulate (u ++ [c]) ≠ nfa.simulate v := by
  intro same
  have detours : ∀ c ∈ [detour, 'c'], c ∉ letters := by
    simpa using ⟨recalls.apart detour (by simp), recalls.apart 'c' (by simp)⟩
  have accepted := (recalls.accepts_padded short inside detours).mpr (.inl rfl)
  rw [← accepts_append_congr same] at accepted
  have few := length_filter_le ((recalls.accepts_iff _).mp accepted)
  have both : [detour, 'c'].filter (· ∉ letters) = [detour, 'c'] :=
    List.filter_eq_self.mpr fun c member => decide_eq_true (detours c member)
  have sign : [c].filter (· ∉ letters) = [c] := List.filter_cons_of_pos (decide_eq_true outside)
  simp only [List.filter_append, List.length_append, both, sign, List.length_cons, List.length_nil] at few
  omega

section

variable {u : List Char} (long : u.length = signs.length) (inside : ∀ c ∈ u, c ∈ letters)
include long inside

theorem simulate_detour_ne_empty : nfa.simulate (u ++ [detour]) ≠ ∅ := by
  have ends : Ends detour stop signs u [detour, 'c'] := .inl rfl
  have accepted := (recalls.accepts_append_iff inside (ends.not_mem_letters recalls.apart)).mpr ⟨long, ends⟩
  rw [← List.singleton_append, ← List.append_assoc] at accepted
  exact simulate_ne_empty_of_accepts accepted

theorem accepts_stop : nfa.accepts (u ++ [stop]) = true :=
  (recalls.accepts_append_iff inside recalls.stop_outside).mpr ⟨long, .inr (.inl rfl)⟩

end

theorem detour_ne_stop : detour ≠ stop := by
  have signs := (List.nodup_append.mp recalls.distinct).2.1
  simp only [List.nodup_cons, List.mem_cons, not_or] at signs
  exact signs.1.2.1

theorem not_accepts_detour {u : List Char} (inside : ∀ c ∈ u, c ∈ letters) : ¬ nfa.accepts (u ++ [detour]) = true := by
  have outside : ∀ c ∈ [detour], c ∉ letters := by simpa using recalls.apart detour (by simp)
  rw [recalls.accepts_append_iff inside outside]
  rintro ⟨_, ends | ends | ⟨sign, ends, marked⟩⟩
  · simp at ends
  · exact recalls.detour_ne_stop (List.singleton_inj.mp ends)
  · obtain rfl := List.singleton_inj.mp ends
    exact recalls.detour_ne (List.of_mem_zip marked).2 rfl

end Recalls

end Nfa

end RegexCompiler
