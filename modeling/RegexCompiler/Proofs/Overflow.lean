import RegexCompiler.Proofs.Lockstep
import RegexCompiler.Proofs.Recall

namespace RegexCompiler

open Recall

/-! ## Places of the sets -/

/-- The letters are in the alphabet, and the first two characters of it are the signs
    behind which every word may go on or end. -/
structure Recall.SignsFirst (alphabet : Alphabet) (detour stop first second : Char) : Prop where
  letters_mem : ∀ c ∈ letters, c ∈ alphabet
  listed : ∃ rest, alphabet.toList = first :: second :: rest
  roles : [first, second].Perm [detour, stop]

/-- The words of letters, and then those that go on behind the first one of the full
    length with the first two characters. -/
def Recall.foremost (signs : List Char) (first second : Char) : List (List Char) :=
  wordsUpTo letters signs.length ++ [first, second].map (List.replicate signs.length 'a' ++ [·])

namespace Nfa.Recalls

variable {nfa : Nfa} {detour stop : Char} {signs : List Char} (recalls : nfa.Recalls detour stop signs)
include recalls

theorem nodup_levels : ((wordsUpTo letters signs.length).map nfa.simulate).Nodup := by
  refine List.Nodup.map_on (fun u member v member' same => ?_) (nodup_wordsUpTo (by decide))
  obtain ⟨short, inside⟩ := mem_wordsUpTo.mp member
  exact recalls.eq_of_simulate_eq short inside (mem_wordsUpTo.mp member').2 same

/-- A sign is entered by one set, wherever it is read. -/
theorem exists_entered : ∃ entered : Char → StateSet, ∀ u c, c ∉ letters → nfa.simulate (u ++ [c]) ≠ ∅ →
    nfa.simulate (u ++ [c]) = entered c := by
  refine ⟨fun c => Classical.epsilon fun states => ∃ u, nfa.simulate (u ++ [c]) ≠ ∅ ∧ nfa.simulate (u ++ [c]) = states,
    fun u c outside active => ?_⟩
  obtain ⟨v, active', same⟩ := Classical.epsilon_spec
    (p := fun states => ∃ u, nfa.simulate (u ++ [c]) ≠ ∅ ∧ nfa.simulate (u ++ [c]) = states) ⟨_, u, active, rfl⟩
  exact (recalls.once u v c outside active active').trans same

theorem size_toDfa_le (alphabet : Alphabet) :
    (nfa.toDfa alphabet).sets.size ≤ (wordsUpTo letters signs.length).length + (signs.length + 3) := by
  obtain ⟨entered, entered_eq⟩ := recalls.exists_entered
  have covered : (nfa.toDfa alphabet).sets.toList ⊆
      (wordsUpTo letters signs.length).map nfa.simulate ++ (signs ++ [detour, 'c', stop]).map entered := by
    intro states member
    obtain ⟨active, w, _, rfl⟩ := Dfa.mem_sets_toDfa_iff.mp (Array.mem_toList_iff.mp member)
    rw [List.mem_append, List.mem_map, List.mem_map]
    rcases recalls.cases_of_simulate active with short | ⟨u, z, rfl, _, some, outside⟩
    · exact .inl ⟨w, mem_wordsUpTo.mpr short, rfl⟩
    · obtain ⟨before, c, rfl⟩ := (List.eq_nil_or_concat z).resolve_left some
      rw [List.concat_eq_append] at active outside ⊢
      have sign := outside c (by simp)
      rw [← List.append_assoc] at active ⊢
      exact .inr ⟨c, sign, (entered_eq _ c (recalls.apart c sign) active).symm⟩
  have bound := (Dfa.nodup_sets_toDfa nfa alphabet).length_le_of_subset covered
  simpa using bound

theorem simulate_detour_ne_stop {u v : List Char} (inside : ∀ c ∈ u, c ∈ letters) (long : v.length = signs.length)
    (inside' : ∀ c ∈ v, c ∈ letters) : nfa.simulate (u ++ [detour]) ≠ nfa.simulate (v ++ [stop]) := by
  intro same
  have agree := accepts_append_congr same []
  rw [List.append_nil, List.append_nil, recalls.accepts_stop long inside'] at agree
  exact recalls.not_accepts_detour inside agree

variable {alphabet : Alphabet} {first second : Char} (order : SignsFirst alphabet detour stop first second)
include order

theorem goes {w : List Char} (short : w.length < signs.length) (inside : ∀ c ∈ w, c ∈ letters) :
    alphabet.toList.filter (fun c => !(nfa.advance (nfa.simulate w) c).isEmpty) = letters := by
  refine List.Pairwise.eq_of_mem_iff (alphabet.ascending_toList.filter _) (by decide) fun c => ?_
  have active : (!(nfa.advance (nfa.simulate w) c).isEmpty) = true ↔ c ∈ letters := by
    rw [← recalls.advance_ne_empty_iff short inside]
    simp
  rw [List.mem_filter, active, Std.ExtTreeSet.mem_toList]
  exact and_iff_right_of_imp (order.letters_mem c)

theorem simulate_sign_ne_empty {c : Char} (sign : c ∈ [first, second]) {u : List Char} (long : u.length = signs.length)
    (inside : ∀ c ∈ u, c ∈ letters) : nfa.simulate (u ++ [c]) ≠ ∅ := by
  rcases List.mem_pair.mp (order.roles.mem_iff.mp sign) with rfl | rfl
  · exact recalls.simulate_detour_ne_empty long inside
  · refine simulate_ne_empty_of_accepts (v := []) ?_
    rw [List.append_nil]
    exact recalls.accepts_stop long inside

theorem sign_outside {c : Char} (sign : c ∈ [first, second]) : c ∉ letters := by
  refine recalls.apart c (List.mem_append_right _ ?_)
  rcases List.mem_pair.mp (order.roles.mem_iff.mp sign) with rfl | rfl <;> simp

theorem nodup_foremost : ((foremost signs first second).map nfa.simulate).Nodup := by
  have long : (List.replicate signs.length 'a').length = signs.length := List.length_replicate
  have inside := replicate_inside (c := 'a') (by decide) signs.length
  rw [foremost, List.map_append, List.map_map]
  refine List.nodup_append.mpr ⟨recalls.nodup_levels, ?_, ?_⟩
  · rw [(order.roles.map _).nodup_iff]
    simpa using recalls.simulate_detour_ne_stop inside long inside
  · rintro _ member _ member' rfl
    obtain ⟨v, listed, same⟩ := List.mem_map.mp member
    obtain ⟨c, sign, same'⟩ := List.mem_map.mp member'
    obtain ⟨short, inside'⟩ := mem_wordsUpTo.mp listed
    exact recalls.simulate_sign_ne (recalls.sign_outside order sign) short inside' (same'.trans same.symm)

/-- Once all words of letters have been found, the first word of the full length finds
    the sets of the first two characters. -/
theorem sets_toDfa_prefix : (foremost signs first second).map nfa.simulate <+: (nfa.toDfa alphabet).sets.toList := by
  obtain ⟨rest, listed⟩ := order.listed
  obtain ⟨level, same, lists⟩ := Exploration.exists_level (fun w => recalls.goes order) recalls.nodup_levels
  obtain ⟨words, starts : wordsOf letters signs.length = _⟩ := wordsOf_eq_cons 'a' ['b'] signs.length
  rw [starts] at lists
  obtain ⟨source, items, same', taken⟩ := lists.take
  have active : ∀ c ∈ [first, second], nfa.simulate (List.replicate signs.length 'a' ++ [c]) ≠ ∅ := fun c sign =>
    recalls.simulate_sign_ne_empty order sign List.length_replicate (replicate_inside (by decide) _)
  have found := taken.discoverAll source active (recalls.nodup_foremost order)
  have sets : (nfa.toDfa alphabet).sets = (Exploration.run nfa (.initial nfa alphabet)).sets := rfl
  rw [sets, ← same, same', listed, foremost, ← found.sets_eq]
  exact (Exploration.sets_prefix_foldl_follow nfa source _ rest _).trans (Exploration.sets_prefix_run nfa _)

section

variable (many : signs.length = 31)
include many

omit order in
theorem size_toDfa_lt (alphabet : Alphabet) : (nfa.toDfa alphabet).sets.size < 2 * UInt32.size := by
  have bound := recalls.size_toDfa_le alphabet
  have count : (wordsUpTo letters signs.length).length + 1 = 2 ^ (signs.length + 1) := length_wordsUpTo rfl
  rw [many] at bound count
  rw [UInt32.size]
  omega

theorem sets_toDfa_size : (nfa.toDfa alphabet).sets[UInt32.size]? =
    some (nfa.simulate (List.replicate signs.length 'a' ++ [second])) := by
  obtain ⟨later, sets⟩ := recalls.sets_toDfa_prefix order
  have count : (wordsUpTo letters signs.length).length + 1 = UInt32.size := by
    rw [length_wordsUpTo rfl, many]
    rfl
  rw [← Array.getElem?_toList, ← sets, foremost, ← count]
  simp

/-- The number of the start is also that of the set with the second character. -/
theorem isFinal_zero_iff : (nfa.toDfa alphabet).isFinal 0 = true ↔ second = stop := by
  have inside := replicate_inside (c := 'a') (by decide) signs.length
  have long : (List.replicate signs.length 'a').length = signs.length := List.length_replicate
  have place := recalls.sets_toDfa_size order many
  have found : (nfa.toDfa alphabet).sets = (Exploration.run nfa (.initial nfa alphabet)).sets := rfl
  rw [Nfa.toDfa, Dfa.isFinal_markFinals_iff, ← found]
  constructor
  · rintro ⟨index, states, listed, accepting, number⟩
    have less := (Array.getElem?_eq_some_iff.mp listed).1.trans (recalls.size_toDfa_lt many alphabet)
    have multiple : index % UInt32.size = 0 := congrArg UInt32.toNat number
    obtain rfl | rfl : index = 0 ∨ index = UInt32.size := by
      rw [UInt32.size] at less multiple ⊢
      omega
    · have start : states = nfa.simulate [] := Option.some.inj (listed.symm.trans (Dfa.states?_toDfa_zero nfa alphabet))
      have accepted := Nfa.accepts_iff.mpr (start ▸ accepting)
      have lengths := (recalls.accepts_append_iff (u := []) (z := []) (by simp) (by simp)).mp accepted
      exact absurd (lengths.1.trans many) (by decide)
    · have entered := Option.some.inj (listed.symm.trans place)
      have accepted := Nfa.accepts_iff.mpr (entered ▸ accepting)
      rcases List.mem_pair.mp (order.roles.mem_iff.mp (.tail _ (.head _))) with rfl | rfl
      · exact absurd accepted (recalls.not_accepts_detour inside)
      · rfl
  · rintro rfl
    exact ⟨UInt32.size, _, place, Nfa.accepts_iff.mp (recalls.accepts_stop long inside), rfl⟩

end

end Nfa.Recalls

/-! ## Compiling them -/

section

variable {detour stop : Char} {signs : List Char} (apart : ∀ sign ∈ signs ++ [detour, 'c', stop], sign ∉ letters)
include apart

theorem Recall.count_literals_le (distinct : (signs ++ [detour, 'c', stop]).Nodup) {c : Char} (outside : c ∉ letters) :
    (tree detour stop signs).literals.count c ≤ 1 := by
  rw [← List.count_filter (p := (· ∉ letters)) (decide_eq_true outside), filter_literals apart]
  exact List.nodup_iff_count_le_one.mp distinct c

theorem Recall.mem_literals_iff (some : signs ≠ []) {c : Char} :
    c ∈ (tree detour stop signs).literals ↔ c ∈ signs ++ [detour, 'c', stop] ++ letters := by
  rw [List.mem_append, ← filter_literals apart, List.mem_filter, decide_eq_true_iff]
  by_cases isLetter : c ∈ letters
  · obtain ⟨sign, signs, rfl⟩ := List.exists_cons_of_ne_nil some
    have occurs : c ∈ letter.literals := isLetter
    simp [tree, Tree.literals, occurs, isLetter]
  · simp [isLetter]

theorem Tree.recalls {t : Tree} (regroups : Regroups (Recall.tree detour stop signs) t) (few : t.stateCount < UInt32.size)
    (distinct : (signs ++ [detour, 'c', stop]).Nodup) : t.nfa.Recalls detour stop signs where
  apart := apart
  distinct := distinct
  accepts_iff := fun word => by
    rw [Nfa.accepts_iff, Nfa.mem_simulate, t.path_nfa_iff (Nat.le_of_lt few), regroups.matches_iff]
  alive := fun u => (t.trim_nfa few).exists_accepts (t.keepsTo_nfa few)
  once := by
    intro u v c outside active active'
    have occurs : (t.entries c).card ≤ 1 := by
      refine (t.card_entries_le c).trans ?_
      rw [regroups.literals_eq]
      exact count_literals_le apart distinct outside
    have one : (t.nfa.closures (t.entries c)).card ≤ 1 :=
      (t.nfa.card_closures_le _).trans (Nat.sub_le_sub_right (Nat.pow_le_pow_right Nat.two_pos occurs) 1)
    rw [Nfa.simulate_concat] at active active' ⊢
    rw [Nfa.simulate_concat]
    have entered {active : StateSet} (nonempty : t.nfa.advance active c ≠ ∅) :=
      Nfa.advance_mem_closures (fun _ _ _ => target_mem_entries) nonempty
    exact Finset.card_le_one.mp one _ (entered active) _ (entered active')

end

theorem Recall.length_text_le (detour stop : Char) (signs : List Char) :
    (text detour stop signs).length ≤ 6 + signs.length * (5 * signs.length + 9) := by
  have skipped (sign : Char) (count : Nat) : (skipText sign count).length = 5 * count + 1 := by
    induction count with
    | zero => rfl
    | succ count ih =>
      rw [skipText, List.length_append, ih]
      simp
      omega
  induction signs with
  | nil => simp [text]
  | cons sign signs ih =>
    simp only [text, List.length_append, List.length_cons, List.length_nil, skipped]
    nlinarith

theorem Recall.text_map {char : Char → Char} (kept : ∀ c ∈ ['(', ')', '|', 'a', 'b', 'c'], char c = c) (detour stop : Char)
    {signs : List Char} (kept' : ∀ sign ∈ signs, char sign = sign) :
    (text detour stop signs).map char = text (char detour) (char stop) signs := by
  simp only [List.forall_mem_cons] at kept
  have skipped {sign : Char} (stays : char sign = sign) (count : Nat) :
      (skipText sign count).map char = skipText sign count := by
    induction count with
    | zero => simp [skipText, stays]
    | succ count ih => simp [skipText, ih, kept]
  induction signs with
  | nil => simp [text, kept]
  | cons sign signs ih =>
    rw [List.forall_mem_cons] at kept'
    simp [text, skipped kept'.1, ih kept'.2, kept]

section

variable {detour stop first second : Char} {signs : List Char} (roles : [first, second].Perm [detour, stop])
include roles

theorem Recall.signs_perm :
    (signs ++ [detour, 'c', stop] ++ letters).Perm (first :: second :: (signs ++ ['a', 'b', 'c'])) := by
  have others : [detour, 'c', stop].Perm [first, second, 'c'] :=
    (List.Perm.cons detour (.swap stop 'c' [])).trans (roles.symm.append_right ['c'])
  refine ((others.append_left signs).append_right letters).trans (List.perm_iff_count.mpr fun c => ?_)
  simp only [letters, List.count_append, List.count_cons, List.count_nil]
  omega

theorem Recall.ofChar_of_plain (plain : ∀ sign ∈ first :: second :: signs, Token.ofChar sign = .literal sign) :
    ∀ sign ∈ signs ++ [detour, 'c', stop], Token.ofChar sign = .literal sign := by
  intro sign member
  have listed := (signs_perm roles).mem_iff.mp (List.mem_append_left letters member)
  by_cases last : sign ∈ ['a', 'b', 'c']
  · simp only [List.mem_cons, List.not_mem_nil, or_false] at last
    rcases last with rfl | rfl | rfl <;> rfl
  · refine plain sign ?_
    simpa [last] using listed

theorem Recall.signsFirst {alphabet : Alphabet}
    (mem_alphabet : ∀ c, c ∈ alphabet ↔ c ∈ signs ++ [detour, 'c', stop] ++ letters)
    (ascending : (first :: second :: (signs ++ ['a', 'b', 'c'])).Pairwise (· < ·)) :
    SignsFirst alphabet detour stop first second := by
  refine ⟨fun c letter => (mem_alphabet c).mpr (List.mem_append_right _ letter), ⟨signs ++ ['a', 'b', 'c'], ?_⟩, roles⟩
  refine List.Pairwise.eq_of_mem_iff alphabet.ascending_toList ascending fun c => ?_
  rw [Std.ExtTreeSet.mem_toList, mem_alphabet, (signs_perm roles).mem_iff]

/-- In the deterministic automaton of such an expression for words of 31 letters, it
    depends on the order of the signs whether the start is accepting. -/
theorem Recall.accepts_nil_iff (many : signs.length = 31)
    (plain : ∀ sign ∈ first :: second :: signs, Token.ofChar sign = .literal sign)
    (ascending : (first :: second :: (signs ++ ['a', 'b', 'c'])).Pairwise (· < ·)) :
    ∃ compiled, compile (String.ofList (text detour stop signs)) = .ok compiled ∧
      (compiled.dfa.accepts [] = true ↔ second = stop) := by
  obtain ⟨distinct, _, disjoint⟩ := List.nodup_append.mp ((signs_perm roles).nodup_iff.mpr (ascending.imp ne_of_lt))
  have apart : ∀ sign ∈ signs ++ [detour, 'c', stop], sign ∉ letters := fun s sign letter => disjoint s sign s letter rfl
  obtain ⟨placed, parses, regroups⟩ := (renders_tree (ofChar_of_plain roles plain) 0).parses 0
  rw [← String.toList_ofList (l := text detour stop signs)] at parses
  have short : (String.ofList (text detour stop signs)).length < 2 ^ 31 := by
    have bound := length_text_le detour stop signs
    rw [many] at bound
    rw [String.length_ofList]
    omega
  have recalls := Tree.recalls apart regroups (parses.stateCount_lt short) distinct
  have some : signs ≠ [] := by
    rintro rfl
    cases many
  have order : SignsFirst (.ofExpression (.ofList (text detour stop signs))) detour stop first second := by
    refine signsFirst roles (fun c => ?_) ascending
    rw [parses.alphabet_eq, Alphabet.mem_ofList, regroups.literals_eq, mem_literals_iff apart some]
  refine ⟨_, compile_of_parses parses, ?_⟩
  rw [Compiled.dfa, Dfa.accepts, Dfa.run_nil, Dfa.start_toDfa, Option.any_some]
  exact recalls.isFinal_zero_iff order many

end

end RegexCompiler
