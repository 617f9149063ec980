import Std.Data.ExtTreeSet

/-! Sets of states are listed in ascending order, so sets with the same members are the same value. -/

namespace RegexCompiler

/-- The number of a state. -/
abbrev StateId := UInt32

/-- A finite set of states. -/
abbrev StateSet := Std.ExtTreeSet StateId

namespace StateSet

/-- The set of the listed states. -/
def ofList (ids : List StateId) : StateSet := Std.ExtTreeSet.ofList ids

/-- Adds a state and tells whether it was not a member before. -/
def add (states : StateSet) (state : StateId) : Bool × StateSet :=
  let (known, extended) := states.containsThenInsert state
  (!known, extended)

/-- The words that a hash of the set is computed from: its members, then their
    number. -/
def hashWords (states : StateSet) : List Nat :=
  states.toList.map UInt32.toNat ++ [states.size]

/-- The members in brackets, as in `[0, 2]`. -/
def render (states : StateSet) : String :=
  "[" ++ String.intercalate ", " (states.toList.map (·.toNat.repr)) ++ "]"

@[simp] theorem mem_ofList {ids : List StateId} {state : StateId} :
    state ∈ ofList ids ↔ state ∈ ids := by
  simp [ofList]

@[simp] theorem add_fst (states : StateSet) (state : StateId) :
    (states.add state).1 = !states.contains state := by
  simp [add]

@[simp] theorem add_snd (states : StateSet) (state : StateId) :
    (states.add state).2 = states.insert state := by
  simp [add]

theorem mem_insert_iff {states : StateSet} {state added : StateId} :
    state ∈ states.insert added ↔ state = added ∨ state ∈ states := by
  rw [Std.ExtTreeSet.mem_insert, Std.LawfulEqOrd.compare_eq_iff_eq, eq_comm]

theorem not_mem_empty (state : StateId) : state ∉ (∅ : StateSet) :=
  Std.ExtTreeSet.not_mem_empty

theorem mem_singleton_iff {state member : StateId} : state ∈ ({member} : StateSet) ↔ state = member := by
  change state ∈ (∅ : StateSet).insert member ↔ state = member
  rw [mem_insert_iff, or_iff_left (not_mem_empty state)]

theorem ascending_toList (states : StateSet) : states.toList.Pairwise (· < ·) := by
  exact states.ordered_toList.imp Std.compare_eq_lt.1

theorem nodup_toList (states : StateSet) : states.toList.Nodup :=
  states.ascending_toList.imp fun less => UInt32.ne_of_lt less

theorem union_empty (states : StateSet) : states ∪ ∅ = states :=
  Std.ExtTreeSet.ext_mem fun state => by simp [Std.ExtTreeSet.mem_union_iff]

theorem empty_union (states : StateSet) : ∅ ∪ states = states :=
  Std.ExtTreeSet.ext_mem fun state => by simp [Std.ExtTreeSet.mem_union_iff]

theorem empty_diff (states : StateSet) : ∅ \ states = ∅ :=
  Std.ExtTreeSet.ext_mem fun state => by simp [Std.ExtTreeSet.mem_diff_iff]

/-- The members of two sets without a common one are listed together. -/
theorem toList_union_perm {states fresh : StateSet} (apart : ∀ state ∈ fresh, state ∉ states) :
    (states ∪ fresh).toList.Perm (states.toList ++ fresh.toList) := by
  apply (List.perm_ext_iff_of_nodup (nodup_toList _) ?_).mpr
  · intro state
    simp only [List.mem_append, Std.ExtTreeSet.mem_toList, Std.ExtTreeSet.mem_union_iff]
  · refine List.nodup_append.mpr ⟨nodup_toList _, nodup_toList _, ?_⟩
    rintro state old _ new rfl
    exact apart state (Std.ExtTreeSet.mem_toList.mp new) (Std.ExtTreeSet.mem_toList.mp old)

end StateSet

/-- Compares two rows by their states and, if these are the same, by their
    labels. -/
def rowOrder {Label : Type} [Ord Label] : StateId × Label → StateId × Label → Ordering :=
  (lexOrd : Ord (StateId × Label)).compare

instance {Label : Type} [Ord Label] [Std.TransOrd Label] :
    Std.TransCmp (@rowOrder Label _) :=
  (inferInstance : @Std.TransOrd (StateId × Label) lexOrd)

instance {Label : Type} [Ord Label] [Std.TransOrd Label] [Std.LawfulEqOrd Label] :
    Std.LawfulEqCmp (@rowOrder Label _) :=
  (inferInstance : @Std.LawfulEqOrd (StateId × Label) lexOrd)

end RegexCompiler
