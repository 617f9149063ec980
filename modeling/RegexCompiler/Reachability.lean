import RegexCompiler.Finite

namespace RegexCompiler

/-- Adds to `found` what the waiting states lead to, and all that can be reached
    from there. -/
def search (next : StateId → StateSet) (waiting : List StateId) (found : StateSet) : StateSet :=
  match waiting with
  | [] => found
  | state :: rest =>
    let fresh := next state \ found
    if fresh.isEmpty then search next rest found
    else search next (rest ++ fresh.toList) (found ∪ fresh)
termination_by (outside StateId.exists_all.choose found.contains, waiting.length)
decreasing_by
  · exact Prod.Lex.right _ (by simp)
  · rename_i nonempty
    obtain ⟨target, isFresh⟩ : ∃ target, target ∈ fresh := by
      refine Classical.byContradiction fun none => nonempty (Std.ExtTreeSet.isEmpty_iff.2 ?_)
      exact Std.ExtTreeSet.ext_mem fun s => ⟨fun member => absurd ⟨s, member⟩ none, by simp⟩
    have unknown := (Std.ExtTreeSet.mem_diff_iff.1 isFresh).2
    refine Prod.Lex.left _ _ (outside_lt (a := target) ?_ (StateId.exists_all.choose_spec target) ?_ ?_)
    · exact fun s member => Std.ExtTreeSet.mem_union_iff.2 (.inl member)
    · exact unknown
    · exact Std.ExtTreeSet.mem_union_iff.2 (.inr isFresh)

/-- The given states and all that can be reached from them. -/
def reachable (next : StateId → StateSet) (states : StateSet) : StateSet :=
  search next states.toList states

/-- A chain of zero or more edges leads from one state to another. -/
inductive Reaches (next : StateId → StateSet) (source : StateId) : StateId → Prop where
  | refl : Reaches next source source
  | step {middle target : StateId} :
    Reaches next source middle → target ∈ next middle → Reaches next source target

theorem Reaches.trans {next : StateId → StateSet} {first second third : StateId}
    (left : Reaches next first second) (right : Reaches next second third) : Reaches next first third := by
  induction right with
  | refl => exact left
  | step _ edge ih => exact .step ih edge

theorem subset_search {next : StateId → StateSet} {waiting : List StateId} {found : StateSet} {state : StateId}
    (member : state ∈ found) : state ∈ search next waiting found := by
  fun_induction search next waiting found with
  | case1 => exact member
  | case2 _ _ _ _ _ ih => exact ih member
  | case3 _ _ _ _ _ ih => exact ih (Std.ExtTreeSet.mem_union_iff.2 (.inl member))

theorem search_subset {next : StateId → StateSet} {waiting : List StateId} {found : StateSet}
    {inside : StateId → Prop} (closed : ∀ s, inside s → ∀ t ∈ next s, inside t)
    (waits : ∀ s ∈ waiting, inside s) (finds : ∀ s ∈ found, inside s) :
    ∀ s ∈ search next waiting found, inside s := by
  fun_induction search next waiting found with
  | case1 => exact finds
  | case2 _ _ _ _ _ ih => exact ih (fun s member => waits s (.tail _ member)) finds
  | case3 found state rest fresh _ ih =>
    have freshInside : ∀ t ∈ fresh, inside t := fun t member =>
      closed state (waits state (.head _)) t (Std.ExtTreeSet.mem_diff_iff.1 member).1
    refine ih (fun s member => ?_) (fun s member => ?_)
    · rcases List.mem_append.1 member with old | new
      · exact waits s (.tail _ old)
      · exact freshInside s (Std.ExtTreeSet.mem_toList.1 new)
    · rcases Std.ExtTreeSet.mem_union_iff.1 member with old | new
      · exact finds s old
      · exact freshInside s new

/-- No edge leaves what a search finds, if only waiting states had edges out of
    what was found before. -/
theorem search_closed {next : StateId → StateSet} {waiting : List StateId} {found : StateSet}
    (frontier : ∀ s ∈ found, s ∈ waiting ∨ ∀ t ∈ next s, t ∈ found) :
    ∀ s ∈ search next waiting found, ∀ t ∈ next s, t ∈ search next waiting found := by
  fun_induction search next waiting found with
  | case1 found => exact fun s member => (frontier s member).resolve_left (by simp)
  | case2 found state rest fresh none ih =>
    refine ih fun s member => ?_
    rcases frontier s member with waits | done
    · rcases List.mem_cons.1 waits with rfl | later
      · refine .inr fun t edge => Classical.byContradiction fun unknown => ?_
        have isFresh : t ∈ fresh := Std.ExtTreeSet.mem_diff_iff.2 ⟨edge, unknown⟩
        rw [Std.ExtTreeSet.isEmpty_iff.1 none] at isFresh
        simp at isFresh
      · exact .inl later
    · exact .inr done
  | case3 found state rest fresh _ ih =>
    refine ih fun s member => ?_
    rcases Std.ExtTreeSet.mem_union_iff.1 member with old | new
    · rcases frontier s old with waits | done
      · rcases List.mem_cons.1 waits with rfl | later
        · refine .inr fun t edge => Std.ExtTreeSet.mem_union_iff.2 ?_
          by_cases known : t ∈ found
          · exact .inl known
          · exact .inr (Std.ExtTreeSet.mem_diff_iff.2 ⟨edge, known⟩)
        · exact .inl (List.mem_append.2 (.inl later))
      · exact .inr fun t edge => Std.ExtTreeSet.mem_union_iff.2 (.inl (done t edge))
    · exact .inl (List.mem_append.2 (.inr (Std.ExtTreeSet.mem_toList.2 new)))

/-- A state is found exactly when a chain of edges leads to it. -/
theorem mem_reachable {next : StateId → StateSet} {states : StateSet} {target : StateId} :
    target ∈ reachable next states ↔ ∃ source ∈ states, Reaches next source target := by
  constructor
  · let inside (t : StateId) : Prop := ∃ source ∈ states, Reaches next source t
    have closed : ∀ s, inside s → ∀ t ∈ next s, inside t :=
      fun s ⟨source, given, chain⟩ t edge => ⟨source, given, .step chain edge⟩
    exact search_subset closed (fun s member => ⟨s, Std.ExtTreeSet.mem_toList.1 member, .refl⟩)
      (fun s member => ⟨s, member, .refl⟩) target
  · rintro ⟨source, given, chain⟩
    induction chain with
    | refl => exact subset_search given
    | step _ edge ih =>
      exact search_closed (fun s member => .inl (Std.ExtTreeSet.mem_toList.2 member)) _ ih _ edge

end RegexCompiler
