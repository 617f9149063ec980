import RegexCompiler.Proofs.Acceptance
import RegexCompiler.Proofs.Rounds

/-!
A closure is computed in as many rounds as it has members, and its members are the ends of the walks on
epsilon (`Nfa.closure_walks`).
-/

namespace RegexCompiler

/-! ### Rounds of a search -/

/-- A round of a search takes up the first waiting state. What it leads to waits
    behind all others, unless it was found before. -/
def searchRound (next : StateId → StateSet) : Round Traversal StateId
  | ⟨[], _⟩ => none
  | ⟨state :: rest, found⟩ =>
    let fresh := next state \ found
    some (state, ⟨rest ++ fresh.toList, found ∪ fresh⟩)

/-- A search goes through rounds until no state waits. -/
theorem terminates_search (next : StateId → StateSet) (waiting : List StateId) (found : StateSet) :
    ∃ taken, Terminates (searchRound next) ⟨waiting, found⟩ taken ⟨[], search next waiting found⟩ := by
  fun_induction search next waiting found with
  | case1 found => exact ⟨[], .refl rfl⟩
  | case2 found state rest fresh none ih =>
    obtain ⟨taken, halts⟩ := ih
    have same : searchRound next ⟨state :: rest, found⟩ = some (state, ⟨rest, found⟩) := by
      have empty : next state \ found = ∅ := Std.ExtTreeSet.isEmpty_iff.mp none
      have unchanged : found ∪ ∅ = found := by
        refine Std.ExtTreeSet.ext_mem fun s => ?_
        rw [Std.ExtTreeSet.mem_union_iff]
        exact or_iff_left (StateSet.not_mem_empty s)
      simp only [searchRound]
      rw [empty, unchanged, Std.ExtTreeSet.toList_eq_nil_iff.mpr rfl, List.append_nil]
    exact ⟨state :: taken, halts.step same⟩
  | case3 found state rest fresh _ ih =>
    obtain ⟨taken, halts⟩ := ih
    exact ⟨state :: taken, halts.step rfl⟩

/-- What was taken up and what waits is what was found, each state once. -/
def Traversal.Balanced (taken : List StateId) (t : Traversal) : Prop :=
  (taken ++ t.waiting).Perm t.seen.toList

theorem searchRound_balanced {next : StateId → StateSet} (taken : List StateId) (before : Traversal) (state : StateId)
    (after : Traversal) (round : searchRound next before = some (state, after)) (balanced : before.Balanced taken) :
    after.Balanced (taken ++ [state]) := by
  obtain ⟨waiting, found⟩ := before
  cases waiting with
  | nil => cases round
  | cons first rest =>
    cases round
    have apart : ∀ s ∈ next state \ found, s ∉ found := fun s member => (Std.ExtTreeSet.mem_diff_iff.mp member).2
    refine List.Perm.trans ?_ (StateSet.toList_union_perm apart).symm
    rw [List.append_assoc, List.singleton_append, ← List.cons_append, ← List.append_assoc]
    exact List.Perm.append_right _ balanced

/-- A search that starts with the states that it has found takes up all that it
    finds, each state once. -/
theorem perm_of_terminates_search {next : StateId → StateSet} {states : StateSet} {taken : List StateId} {last : Traversal}
    (halts : Terminates (searchRound next) ⟨states.toList, states⟩ taken last) : taken.Perm last.seen.toList := by
  have balanced : last.Balanced ([] ++ taken) :=
    halts.rounds.invariant searchRound_balanced (List.Perm.refl _)
  obtain ⟨waiting, found⟩ := last
  cases waiting with
  | nil =>
    rw [Traversal.Balanced, List.append_nil] at balanced
    exact balanced
  | cons state rest => cases halts.ends

/-! ### Walks without reading -/

theorem Walk.epsilons_iff {table : TransitionTable} {source target : StateId} :
    (∃ count, Walk table source (List.replicate count .epsilon) target) ↔
      Reaches (table.targets · .epsilon) source target := by
  rw [← Path.nil_iff]
  constructor
  · rintro ⟨count, walk⟩
    have path := walk.path
    rwa [spell, List.filterMap_replicate] at path
  · intro path
    obtain ⟨labels, walk, silent⟩ := Walk.of_path path
    have onlyEpsilon : labels = List.replicate labels.length .epsilon := by
      refine List.eq_replicate_iff.mpr ⟨rfl, fun symbol member => ?_⟩
      have noChar := List.filterMap_eq_nil_iff.mp silent symbol member
      cases symbol with
      | epsilon => rfl
      | literal char => cases noChar
    rw [onlyEpsilon] at walk
    exact ⟨_, walk⟩

namespace Nfa

variable (nfa : Nfa) {states more : StateSet}

theorem mem_closure_of_mem {state : StateId} (member : state ∈ states) : state ∈ nfa.closure states :=
  mem_closure.mpr ⟨state, member, .refl⟩

theorem closure_mono (included : ∀ state ∈ states, state ∈ more) :
    ∀ state ∈ nfa.closure states, state ∈ nfa.closure more := by
  intro state member
  obtain ⟨source, given, chain⟩ := mem_closure.mp member
  exact mem_closure.mpr ⟨source, included source given, chain⟩

theorem closure_closure (states : StateSet) : nfa.closure (nfa.closure states) = nfa.closure states := by
  refine Std.ExtTreeSet.ext_mem fun target => ⟨fun member => ?_, nfa.mem_closure_of_mem⟩
  obtain ⟨middle, between, chain'⟩ := mem_closure.mp member
  obtain ⟨source, given, chain⟩ := mem_closure.mp between
  exact mem_closure.mpr ⟨source, given, chain.trans chain'⟩

theorem closure_union (states more : StateSet) :
    nfa.closure (states ∪ more) = nfa.closure states ∪ nfa.closure more := by
  refine Std.ExtTreeSet.ext_mem fun target => ?_
  simp only [mem_closure, Std.ExtTreeSet.mem_union_iff, or_and_right, exists_or]

/-- The closure of a set is computed by a search that ends after it has taken up
    every member once. A state is a member exactly when a walk on nothing but
    epsilon leads there from the set, and no transition that reads a character,
    whatever character, changes a closure. So the closure extends a set, grows with
    it, adds nothing the second time and is that of its parts. -/
theorem closure_walks (nfa : Nfa) (states : StateSet) :
    (∃ taken, Terminates (searchRound (nfa.transitions.targets · .epsilon)) ⟨states.toList, states⟩ taken
        ⟨[], nfa.closure states⟩ ∧ taken.Perm (nfa.closure states).toList) ∧
    (∀ target, target ∈ nfa.closure states ↔
      ∃ source ∈ states, ∃ count, Walk nfa.transitions source (List.replicate count .epsilon) target) ∧
    (∀ source char target, (nfa.connect source (.literal char) target).closure states = nfa.closure states) ∧
    (∀ state ∈ states, state ∈ nfa.closure states) ∧
    (∀ more : StateSet, (∀ state ∈ states, state ∈ more) → ∀ state ∈ nfa.closure states, state ∈ nfa.closure more) ∧
    nfa.closure (nfa.closure states) = nfa.closure states ∧
    ∀ more, nfa.closure (states ∪ more) = nfa.closure states ∪ nfa.closure more := by
  refine ⟨?_, fun target => ?_, fun source char target => ?_, fun state => nfa.mem_closure_of_mem,
    fun more => nfa.closure_mono, nfa.closure_closure states, nfa.closure_union states⟩
  · obtain ⟨taken, halts⟩ := terminates_search (nfa.transitions.targets · .epsilon) states.toList states
    exact ⟨taken, halts, perm_of_terminates_search halts⟩
  · rw [mem_closure]
    simp only [Walk.epsilons_iff]
  · rw [nfa.closure_connect_literal source target char]

theorem closure_walks_sign :
    (∃ taken, Terminates (searchRound (sign.transitions.targets · .epsilon)) ⟨[2], {2}⟩ taken ⟨[], sign.closure {2}⟩ ∧
      taken.length = 2) ∧
    4 ∈ sign.closure {2} ∧ 7 ∉ sign.closure {2} ∧
    ∀ state ∈ sign.closure {2}, state ∈ sign.closure (StateSet.ofList [900, 2]) := by
  obtain ⟨⟨taken, halts, perm⟩, walks, _, _, grows, _⟩ := closure_walks sign {2}
  have members : (sign.closure {2}).toList = [2, 4] := by cbv
  refine ⟨⟨taken, halts, by rw [perm.length_eq, members]; rfl⟩, ?_, ?_, grows _ fun state member => ?_⟩
  · refine (walks 4).mpr ⟨2, StateSet.mem_singleton_iff.mpr rfl, 1, .step ?_ (.refl 4)⟩
    simp [sign, Builder.finish, Builder.connectEpsilon, Builder.connectLiteral, Builder.mem_connect]
  · rw [← Std.ExtTreeSet.mem_toList, members]
    decide
  · rw [StateSet.mem_singleton_iff.mp member, StateSet.mem_ofList]
    decide

end Nfa

end RegexCompiler
