import RegexCompiler.StateSet

/-! A search that only adds to what it has found ends, because there are finitely many sets of states. -/

namespace RegexCompiler

theorem StateId.exists_all : ∃ ids : List StateId, ∀ state, state ∈ ids := by
  refine ⟨(List.range UInt32.size).map UInt32.ofNat, fun state => ?_⟩
  exact List.mem_map.2 ⟨state.toNat, List.mem_range.2 state.toNat_lt, by simp⟩

theorem StateSet.exists_all : ∃ sets : List StateSet, ∀ states, states ∈ sets := by
  have within (ids : List StateId) :
      ∃ sets : List StateSet, ∀ states : StateSet, (∀ state ∈ states, state ∈ ids) → states ∈ sets := by
    induction ids with
    | nil =>
      refine ⟨[∅], fun states none => List.mem_singleton.2 ?_⟩
      exact Std.ExtTreeSet.ext_mem fun state => ⟨fun member => absurd (none state member) (by simp), by simp⟩
    | cons id ids ih =>
      obtain ⟨sets, all⟩ := ih
      refine ⟨sets ++ sets.map (·.insert id), fun states inside => List.mem_append.2 ?_⟩
      by_cases has : id ∈ states
      · refine .inr (List.mem_map.2 ⟨states.erase id, all _ fun state member => ?_, ?_⟩)
        · have := Std.ExtTreeSet.mem_erase.1 member
          have kept := inside state this.2
          grind
        · refine Std.ExtTreeSet.ext_mem fun state => ?_
          rw [StateSet.mem_insert_iff, Std.ExtTreeSet.mem_erase]
          grind
      · refine .inl (all states fun state member => ?_)
        have kept := inside state member
        grind
  obtain ⟨ids, allIds⟩ := StateId.exists_all
  obtain ⟨sets, all⟩ := within ids
  exact ⟨sets, fun states => all states fun state _ => allIds state⟩

/-- How many of the listed values lie outside of what has been found. -/
def outside {α : Type} (all : List α) (found : α → Bool) : Nat :=
  all.countP (!found ·)

theorem outside_le {α : Type} {all : List α} {before after : α → Bool}
    (grows : ∀ a, before a → after a) : outside all after ≤ outside all before := by
  apply List.countP_mono_left
  intro a _ out
  have := grows a
  grind

theorem outside_lt {α : Type} {all : List α} {before after : α → Bool}
    (grows : ∀ a, before a → after a) {a : α} (listed : a ∈ all) (isNew : ¬ before a) (found : after a) :
    outside all after < outside all before := by
  induction all with
  | nil => simp at listed
  | cons b rest ih =>
    have rest_le : outside rest after ≤ outside rest before := outside_le grows
    simp only [outside, List.countP_cons] at rest_le ih ⊢
    rcases List.mem_cons.1 listed with rfl | later
    · simp only [Bool.not_eq_true] at isNew
      simp only [found, isNew, Bool.not_true, Bool.not_false, ↓reduceIte, Bool.false_eq_true]
      omega
    · have less := ih later
      by_cases known : before b
      · simp only [known, grows b known, Bool.not_true, Bool.false_eq_true, ↓reduceIte]
        omega
      · simp only [known, Bool.not_false, ↓reduceIte]
        split <;> omega

end RegexCompiler
