import Mathlib
import RegexCompiler.Dfa
import RegexCompiler.Proofs.Rounds

/-!
The search for an accepting state keeps one invariant (`Dfa.Looks`). It follows the characters of the
alphabet only, though a run follows others too.
-/

namespace RegexCompiler.Dfa

/-! ### Words over the alphabet -/

/-- Some word over the alphabet leads from one state to another. -/
def Leads (dfa : Dfa) (source target : StateId) : Prop :=
  ∃ word, (∀ char ∈ word, char ∈ dfa.alphabet) ∧ dfa.runFrom source word = some target

theorem Leads.refl (dfa : Dfa) (state : StateId) : dfa.Leads state state :=
  ⟨[], by simp, rfl⟩

theorem Leads.step {dfa : Dfa} {source middle target : StateId} (leads : dfa.Leads source middle)
    (next : target ∈ dfa.successors middle) : dfa.Leads source target := by
  obtain ⟨word, inside, runs⟩ := leads
  obtain ⟨char, listed, edge⟩ := mem_successors.mp next
  refine ⟨word ++ [char], ?_, ?_⟩
  · intro c member
    rcases List.mem_append.mp member with early | last
    · exact inside c early
    · rw [List.mem_singleton.mp last]
      exact listed
  · rw [runFrom_append, runs, Option.bind_some, runFrom, edge]
    rfl

/-- States that characters of the alphabet do not leave hold all that words over
    the alphabet lead to. -/
theorem Leads.inside {dfa : Dfa} {Inside : StateId → Prop} {source target : StateId} (leads : dfa.Leads source target)
    (closed : ∀ state, Inside state → ∀ next ∈ dfa.successors state, Inside next) (begins : Inside source) :
    Inside target := by
  obtain ⟨word, inside, runs⟩ := leads
  induction word generalizing source with
  | nil =>
    cases runs
    exact begins
  | cons char rest ih =>
    obtain ⟨next, edge, later⟩ := Option.bind_eq_some_iff.mp runs
    have follows : next ∈ dfa.successors source := mem_successors.mpr ⟨char, inside char (.head _), edge⟩
    exact ih (closed source begins next follows) (fun c member => inside c (.tail _ member)) later

/-- The targets of the transitions, each once for every transition. -/
def targets (dfa : Dfa) : List StateId :=
  dfa.transitions.toList.map (·.2)

theorem mem_targets_of_mem_successors {dfa : Dfa} {source target : StateId} (next : target ∈ dfa.successors source) :
    target ∈ dfa.targets := by
  obtain ⟨char, _, edge⟩ := mem_successors.mp next
  exact List.mem_map.mpr ⟨((source, char), target), Std.ExtTreeMap.mem_toList_iff_getElem?_eq_some.mpr edge, rfl⟩

theorem length_successors_le (dfa : Dfa) (state : StateId) : (dfa.successors state).length ≤ dfa.alphabet.size := by
  rw [← Std.ExtTreeSet.length_toList]
  exact List.length_filterMap_le _ _

/-! ### Rounds of the search -/

/-- A round of the search for an accepting state takes up the first waiting state.
    One that was visited before is passed over, and the search ends at one that is
    accepting. -/
def lookRound (dfa : Dfa) : Round Traversal StateId
  | ⟨[], _⟩ => none
  | ⟨state :: rest, visited⟩ =>
    if visited.contains state then some (state, ⟨rest, visited⟩)
    else if dfa.isFinal state then none
    else
      let visited' := visited.insert state
      some (state, ⟨rest ++ (dfa.successors state).filter (!visited'.contains ·), visited'⟩)

/-- What a round can do: pass over a visited state, or visit a rejecting one and
    let what it leads to wait. -/
theorem lookRound_cases {dfa : Dfa} {before after : Traversal} {state : StateId}
    (round : dfa.lookRound before = some (state, after)) :
    ∃ rest visited, before = ⟨state :: rest, visited⟩ ∧
      ((state ∈ visited ∧ after = ⟨rest, visited⟩) ∨
        (state ∉ visited ∧ dfa.isFinal state = false ∧
          after = ⟨rest ++ (dfa.successors state).filter (!(visited.insert state).contains ·), visited.insert state⟩)) := by
  obtain ⟨waiting, visited⟩ := before
  cases waiting with
  | nil => cases round
  | cons first rest =>
    rw [lookRound] at round
    by_cases known : visited.contains first
    · rw [if_pos known] at round
      cases round
      exact ⟨rest, visited, rfl, .inl ⟨Std.ExtTreeSet.contains_iff_mem.mp known, rfl⟩⟩
    · rw [if_neg known] at round
      by_cases final : dfa.isFinal first
      · rw [if_pos final] at round
        cases round
      · rw [if_neg final] at round
        cases round
        refine ⟨rest, visited, rfl, .inr ⟨fun member => known ?_, Bool.eq_false_iff.mpr final, rfl⟩⟩
        exact Std.ExtTreeSet.contains_iff_mem.mpr member

/-- The search goes through rounds until no state waits, or the first one that
    waits is accepting. -/
theorem terminates_look (dfa : Dfa) (waiting : List StateId) (visited : StateSet) :
    ∃ taken last, Terminates dfa.lookRound ⟨waiting, visited⟩ taken last ∧
      ((dfa.leadsToFinal waiting visited = false ∧ last.waiting = []) ∨
        (dfa.leadsToFinal waiting visited = true ∧ ∃ state ∈ last.waiting, dfa.isFinal state = true)) := by
  fun_induction leadsToFinal dfa waiting visited with
  | case1 visited => exact ⟨[], ⟨[], visited⟩, .refl rfl, .inl ⟨rfl, rfl⟩⟩
  | case2 visited state rest known ih =>
    obtain ⟨taken, last, halts, answer⟩ := ih
    refine ⟨state :: taken, last, halts.step ?_, answer⟩
    rw [lookRound, if_pos known]
  | case3 visited state rest known final =>
    refine ⟨[], ⟨state :: rest, visited⟩, .refl ?_, .inr ⟨rfl, state, .head _, final⟩⟩
    rw [lookRound, if_neg known, if_pos final]
  | case4 visited state rest known final visited' ih =>
    obtain ⟨taken, last, halts, answer⟩ := ih
    refine ⟨state :: taken, last, halts.step ?_, answer⟩
    rw [lookRound, if_neg known, if_neg final]

/-- What holds in every round of the search from a state. -/
structure Looks (dfa : Dfa) (start : StateId) (taken : List StateId) (t : Traversal) : Prop where
  started : start ∈ t.seen ∨ start ∈ t.waiting
  reached : ∀ state, state ∈ t.seen ∨ state ∈ t.waiting → dfa.Leads start state
  rejecting : ∀ state ∈ t.seen, dfa.isFinal state = false
  frontier : ∀ state ∈ t.seen, ∀ next ∈ dfa.successors state, next ∈ t.seen ∨ next ∈ t.waiting
  count : taken.length + t.waiting.length ≤ 1 + t.seen.size * dfa.alphabet.size

namespace Looks

variable {dfa : Dfa} {start state : StateId} {taken rest : List StateId} {visited : StateSet}

theorem initial (dfa : Dfa) (start : StateId) : dfa.Looks start [] ⟨[start], ∅⟩ where
  started := .inr (.head _)
  reached := by
    rintro state (seen | waits)
    · exact absurd seen (StateSet.not_mem_empty state)
    · rw [List.mem_singleton.mp waits]
      exact .refl dfa start
  rejecting := fun state seen => absurd seen (StateSet.not_mem_empty state)
  frontier := fun state seen => absurd seen (StateSet.not_mem_empty state)
  count := by simp

theorem pass (looks : dfa.Looks start taken ⟨state :: rest, visited⟩) (known : state ∈ visited) :
    dfa.Looks start (taken ++ [state]) ⟨rest, visited⟩ := by
  have stays (s : StateId) (found : s ∈ visited ∨ s ∈ state :: rest) : s ∈ visited ∨ s ∈ rest := by
    rcases found with seen | waits
    · exact .inl seen
    · rcases List.mem_cons.mp waits with rfl | later
      · exact .inl known
      · exact .inr later
  constructor
  · exact stays start looks.started
  · intro s found
    exact looks.reached s (found.imp_right (.tail _))
  · exact looks.rejecting
  · intro s seen next follows
    exact stays next (looks.frontier s seen next follows)
  · have count := looks.count
    simp only [List.length_append, List.length_cons, List.length_nil] at count ⊢
    omega

/-- A state that is visited rejects, and what it leads to waits unless it was
    visited. -/
theorem visit (looks : dfa.Looks start taken ⟨state :: rest, visited⟩) (unknown : state ∉ visited)
    (rejects : dfa.isFinal state = false) :
    dfa.Looks start (taken ++ [state])
      ⟨rest ++ (dfa.successors state).filter (!(visited.insert state).contains ·), visited.insert state⟩ := by
  have stays (s : StateId) (found : s ∈ visited ∨ s ∈ state :: rest) : s ∈ visited.insert state ∨ s ∈ rest := by
    rw [StateSet.mem_insert_iff]
    rcases found with seen | waits
    · exact .inl (.inr seen)
    · rcases List.mem_cons.mp waits with rfl | later
      · exact .inl (.inl rfl)
      · exact .inr later
  constructor
  · exact (stays start looks.started).imp_right (List.mem_append_left _)
  · rintro s (seen | waits)
    · rcases StateSet.mem_insert_iff.mp seen with rfl | old
      · exact looks.reached s (.inr (.head _))
      · exact looks.reached s (.inl old)
    · rcases List.mem_append.mp waits with old | new
      · exact looks.reached s (.inr (.tail _ old))
      · exact (looks.reached state (.inr (.head _))).step (List.mem_filter.mp new).1
  · intro s seen
    rcases StateSet.mem_insert_iff.mp seen with rfl | old
    · exact rejects
    · exact looks.rejecting s old
  · intro s seen next follows
    rcases StateSet.mem_insert_iff.mp seen with rfl | old
    · by_cases known : next ∈ visited.insert s
      · exact .inl known
      · refine .inr (List.mem_append_right _ (List.mem_filter.mpr ⟨follows, ?_⟩))
        rw [Bool.not_eq_true', ← Bool.not_eq_true, Std.ExtTreeSet.contains_iff_mem]
        exact known
    · exact (stays next (looks.frontier s old next follows)).imp_right (List.mem_append_left _)
  · have count := looks.count
    have few : ((dfa.successors state).filter (!(visited.insert state).contains ·)).length ≤ dfa.alphabet.size :=
      Nat.le_trans (List.length_filter_le _ _) (length_successors_le dfa state)
    have more : (visited.insert state).size = visited.size + 1 := by
      rw [Std.ExtTreeSet.size_insert, if_neg]
      rwa [Std.ExtTreeSet.contains_iff_mem]
    simp only [List.length_append, List.length_cons, List.length_nil] at count ⊢
    rw [more, Nat.succ_mul]
    omega

theorem after_round {before after : Traversal} (round : dfa.lookRound before = some (state, after))
    (looks : dfa.Looks start taken before) : dfa.Looks start (taken ++ [state]) after := by
  obtain ⟨rest, visited, rfl, ⟨known, rfl⟩ | ⟨unknown, rejects, rfl⟩⟩ := lookRound_cases round
  · exact looks.pass known
  · exact looks.visit unknown rejects

theorem size_seen_le {t : Traversal} (looks : dfa.Looks start taken t) : t.seen.size ≤ 1 + dfa.transitions.size := by
  have inside : t.seen.toList ⊆ start :: dfa.targets := by
    intro state member
    refine (looks.reached state (.inl (Std.ExtTreeSet.mem_toList.mp member))).inside ?_ (.head _)
    exact fun _ _ next follows => .tail _ (mem_targets_of_mem_successors follows)
  have le := (List.subperm_of_subset t.seen.nodup_toList inside).length_le
  rw [Std.ExtTreeSet.length_toList, List.length_cons, targets, List.length_map, Std.ExtTreeMap.length_toList] at le
  omega

end Looks

theorem exists_looks (dfa : Dfa) (start : StateId) :
    ∃ taken last, Terminates dfa.lookRound ⟨[start], ∅⟩ taken last ∧ dfa.Looks start taken last ∧
      ((dfa.leadsToFinal [start] ∅ = false ∧ last.waiting = []) ∨
        (dfa.leadsToFinal [start] ∅ = true ∧ ∃ state ∈ last.waiting, dfa.isFinal state = true)) := by
  obtain ⟨taken, last, halts, answer⟩ := dfa.terminates_look [start] ∅
  have looks : dfa.Looks start ([] ++ taken) last :=
    halts.rounds.invariant (fun _ _ _ _ round => Looks.after_round round) (.initial dfa start)
  exact ⟨taken, last, halts, looks, answer⟩

/-! ### The answer -/

theorem leadsToFinal_iff {dfa : Dfa} {start : StateId} :
    dfa.leadsToFinal [start] ∅ = true ↔ ∃ state, dfa.Leads start state ∧ dfa.isFinal state = true := by
  obtain ⟨taken, last, halts, looks, answer⟩ := dfa.exists_looks start
  rcases answer with ⟨unfound, done⟩ | ⟨found, state, waits, final⟩
  · rw [unfound]
    constructor
    · intro impossible
      cases impossible
    · rintro ⟨state, leads, final⟩
      have seen_of (s : StateId) (found : s ∈ last.seen ∨ s ∈ last.waiting) : s ∈ last.seen := by
        rw [done] at found
        exact found.resolve_right (by simp)
      have seen : state ∈ last.seen := by
        refine leads.inside (fun s seen next follows => ?_) (seen_of start looks.started)
        exact seen_of next (looks.frontier s seen next follows)
      rw [looks.rejecting state seen] at final
      cases final
  · exact ⟨fun _ => ⟨state, looks.reached state (.inr waits), final⟩, fun _ => found⟩

theorem accepts_eq_true_iff {dfa : Dfa} {word : List Char} :
    dfa.accepts word = true ↔
      ∃ start state, dfa.start = some start ∧ dfa.runFrom start word = some state ∧ dfa.isFinal state = true := by
  rw [accepts, Option.any_eq_true]
  constructor
  · rintro ⟨state, runs, final⟩
    obtain ⟨start, isStart, runs⟩ := Option.bind_eq_some_iff.mp runs
    exact ⟨start, state, isStart, runs, final⟩
  · rintro ⟨start, state, isStart, runs, final⟩
    exact ⟨state, Option.bind_eq_some_iff.mpr ⟨start, isStart, runs⟩, final⟩

/-- The automaton is not empty exactly if it accepts a word over its alphabet. -/
theorem isEmpty_eq_false_iff {dfa : Dfa} :
    dfa.isEmpty = false ↔ ∃ word, (∀ char ∈ word, char ∈ dfa.alphabet) ∧ dfa.accepts word = true := by
  simp only [accepts_eq_true_iff]
  cases isStart : dfa.start with
  | none => simp [isEmpty, isStart]
  | some start =>
    have searched : dfa.isEmpty = false ↔ dfa.leadsToFinal [start] ∅ = true := by
      simp only [isEmpty, isStart]
      by_cases none : dfa.finals.isEmpty
      · rw [if_pos none, leadsToFinal_iff]
        refine ⟨fun impossible => (Bool.noConfusion impossible), ?_⟩
        rintro ⟨state, _, final⟩
        rw [isFinal, Std.ExtTreeSet.isEmpty_iff.mp none, Std.ExtTreeSet.contains_empty] at final
        cases final
      · rw [if_neg none, Bool.not_eq_false']
    rw [searched, leadsToFinal_iff]
    constructor
    · rintro ⟨state, ⟨word, inside, runs⟩, final⟩
      exact ⟨word, inside, start, state, rfl, runs, final⟩
    · rintro ⟨word, inside, _, state, ⟨⟩, runs, final⟩
      exact ⟨state, ⟨word, inside, runs⟩, final⟩

theorem mem_alphabet_of_runFrom {dfa : Dfa}
    (labelled : ∀ source char target, dfa.transition? source char = some target → char ∈ dfa.alphabet)
    {source target : StateId} {word : List Char} (runs : dfa.runFrom source word = some target) :
    ∀ char ∈ word, char ∈ dfa.alphabet := by
  induction word generalizing source with
  | nil => simp
  | cons first rest ih =>
    obtain ⟨next, edge, later⟩ := Option.bind_eq_some_iff.mp runs
    intro char member
    rcases List.mem_cons.mp member with rfl | member
    · exact labelled source char next edge
    · exact ih later char member

/-- From any state the search for an accepting state ends, and after no more
    rounds than one and the characters of the alphabet for each state that can be
    entered. The automaton is empty exactly if it rejects all words over its
    alphabet, and, if all transitions are on characters of the alphabet, exactly if
    it rejects all words. -/
theorem isEmpty_iff_rejects (dfa : Dfa) :
    (∀ start, ∃ taken last, Terminates dfa.lookRound ⟨[start], ∅⟩ taken last ∧
      taken.length ≤ 1 + (1 + dfa.transitions.size) * dfa.alphabet.size ∧
      (dfa.leadsToFinal [start] ∅ = true ↔ ∃ state ∈ last.waiting, dfa.isFinal state = true)) ∧
    (dfa.isEmpty = true ↔ ∀ word, (∀ char ∈ word, char ∈ dfa.alphabet) → dfa.accepts word = false) ∧
    ((∀ source char target, dfa.transition? source char = some target → char ∈ dfa.alphabet) →
      (dfa.isEmpty = true ↔ ∀ word, dfa.accepts word = false)) := by
  have rejects : dfa.isEmpty = true ↔ ∀ word, (∀ char ∈ word, char ∈ dfa.alphabet) → dfa.accepts word = false := by
    rw [← Bool.not_eq_false, isEmpty_eq_false_iff]
    simp only [not_exists, not_and, Bool.not_eq_true]
  refine ⟨fun start => ?_, rejects, fun labelled => rejects.trans ?_⟩
  · obtain ⟨taken, last, halts, looks, answer⟩ := dfa.exists_looks start
    refine ⟨taken, last, halts, ?_, ?_⟩
    · have count := looks.count
      have fewer := Nat.mul_le_mul_right dfa.alphabet.size looks.size_seen_le
      omega
    · rcases answer with ⟨unfound, done⟩ | ⟨found, accepting⟩
      · simp [unfound, done]
      · exact ⟨fun _ => accepting, fun _ => found⟩
  · constructor
    · intro rejected word
      refine Bool.eq_false_iff.mpr fun accepted => ?_
      obtain ⟨start, state, _, runs, _⟩ := accepts_eq_true_iff.mp accepted
      rw [rejected word (mem_alphabet_of_runFrom labelled runs)] at accepted
      cases accepted
    · intro rejected word _
      exact rejected word

/-- An automaton with a circle between states that were never added. -/
def circle : Dfa :=
  let dfa : Dfa := { alphabet := Alphabet.ofList ['a'] }
  (((dfa.addTransition 5 'a' 7).addTransition 7 'a' 5).setStart 5).addFinal 9

theorem isEmpty_iff_rejects_circle :
    (∃ taken last, Terminates circle.lookRound ⟨[5], ∅⟩ taken last ∧ taken.length ≤ 4) ∧
    (circle.addTransition 7 'z' 9).isEmpty = true ∧ (circle.addTransition 7 'z' 9).accepts ['a', 'z'] = true ∧
    (circle.addTransition 7 'z' 9).accepts ['a', 'a', 'a'] = false ∧ ∀ word, circle.accepts word = false := by
  obtain ⟨taken, last, halts, few, _⟩ := (isEmpty_iff_rejects circle).1 5
  have empty : (circle.addTransition 7 'z' 9).isEmpty = true := by cbv
  refine ⟨⟨taken, last, halts, ?_⟩, empty, by cbv, ?_, ?_⟩
  · have sizes : 1 + (1 + circle.transitions.size) * circle.alphabet.size = 4 := by cbv
    omega
  · refine (isEmpty_iff_rejects (circle.addTransition 7 'z' 9)).2.1.mp empty ['a', 'a', 'a'] ?_
    have listed : 'a' ∈ (circle.addTransition 7 'z' 9).alphabet := Alphabet.mem_ofList.mpr (.head _)
    simpa using listed
  · refine ((isEmpty_iff_rejects circle).2.2 ?_).mp (by cbv)
    intro source char target edge
    have rows : circle.transitions.toList = [((5, 'a'), 7), ((7, 'a'), 5)] := by cbv
    have row : ((source, char), target) ∈ circle.transitions.toList :=
      Std.ExtTreeMap.mem_toList_iff_getElem?_eq_some.mpr edge
    have isA : char = 'a' := by
      rw [rows] at row
      simp only [List.mem_cons, Prod.mk.injEq, List.not_mem_nil, or_false] at row
      rcases row with ⟨⟨_, same⟩, _⟩ | ⟨⟨_, same⟩, _⟩
      · exact same
      · exact same
    exact isA ▸ Alphabet.mem_ofList.mpr (.head _)

end RegexCompiler.Dfa
