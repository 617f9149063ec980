import RegexCompiler.BitSet
import RegexCompiler.Proofs.Registers

/-!
Ordered sets and vectors of bits, of any lengths and grown in any way, answer as the finite sets of their
members do.
-/

namespace RegexCompiler

/-! ## Members in ascending order -/

theorem mem_ascending {members : Finset StateId} {state : StateId} : state ∈ ascending members ↔ state ∈ members :=
  Finset.mem_sort _

theorem length_ascending (members : Finset StateId) : (ascending members).length = members.card :=
  Finset.length_sort _

theorem pairwise_ascending (members : Finset StateId) : (ascending members).Pairwise (· < ·) := by
  have distinct : (ascending members).Pairwise (· ≠ ·) := Finset.sort_nodup members _
  refine (Finset.pairwise_sort members _).imp₂ (fun left right le ne => ?_) distinct
  exact UInt32.lt_of_le_of_ne le ne

theorem eq_ascending {listed : List StateId} {members : Finset StateId} (sorted : listed.Pairwise (· < ·))
    (same : ∀ state, state ∈ listed ↔ state ∈ members) : listed = ascending members :=
  sorted.eq_of_mem_iff (pairwise_ascending members) fun state => by rw [same, mem_ascending]

/-! ## Ordered sets -/

namespace StateSet

/-- What ordered sets offer. -/
def kind : SetKind StateSet where
  empty := ∅
  withCapacity _ := ∅
  singleton state _ := some {state}
  ofList states := some (ofList states)
  add states state := some (states.add state)
  extend states added := some (states ∪ ofList added)
  union states other := states ∪ other
  contains states state := states.contains state
  isEmpty states := states.isEmpty
  size states := states.size
  toList states := states.toList
  equal states other := states == other
  hashWords := hashWords
  render := render
  inspect := inspect

/-- The set has these members. -/
def Keeps (states : StateSet) (members : Finset StateId) : Prop :=
  ∀ state, state ∈ states ↔ state ∈ members

section

variable {states other : StateSet} {members members' : Finset StateId}

theorem Keeps.toList_eq (keeps : states.Keeps members) : states.toList = ascending members :=
  eq_ascending states.ascending_toList fun state => by rw [Std.ExtTreeSet.mem_toList, keeps]

theorem Keeps.size_eq (keeps : states.Keeps members) : states.size = members.card := by
  rw [← Std.ExtTreeSet.length_toList, keeps.toList_eq, length_ascending]

theorem Keeps.contains_eq (keeps : states.Keeps members) (state : StateId) :
    states.contains state = decide (state ∈ members) := by
  rw [Bool.eq_iff_iff, Std.ExtTreeSet.contains_iff_mem, keeps, decide_eq_true_iff]

theorem Keeps.eq_iff (keeps : states.Keeps members) (keeps' : other.Keeps members') :
    states = other ↔ members = members' := by
  constructor
  · rintro rfl
    exact Finset.ext fun state => by rw [← keeps, keeps']
  · rintro rfl
    exact Std.ExtTreeSet.ext_mem fun state => by rw [keeps, keeps']

theorem Keeps.add (keeps : states.Keeps members) (state : StateId) :
    (states.add state).1 = decide (state ∉ members) ∧ (states.add state).2.Keeps (insert state members) := by
  refine ⟨?_, fun other => ?_⟩
  · rw [add_fst, keeps.contains_eq, decide_not]
  · rw [add_snd, mem_insert_iff, keeps, Finset.mem_insert]

theorem Keeps.union (keeps : states.Keeps members) (keeps' : other.Keeps members') :
    (states ∪ other).Keeps (members ∪ members') := by
  intro state
  rw [Std.ExtTreeSet.mem_union_iff, keeps, keeps', Finset.mem_union]

theorem keeps_empty : (∅ : StateSet).Keeps ∅ := by
  intro state
  exact iff_of_false (not_mem_empty state) (Finset.notMem_empty state)

theorem keeps_ofList (states : List StateId) : (ofList states).Keeps states.toFinset := by
  intro state
  rw [mem_ofList, List.mem_toFinset]

end

theorem represents : kind.Represents Keeps where
  empty := keeps_empty
  withCapacity _ := keeps_empty
  singleton state _ := ⟨_, rfl, fun other => by rw [mem_singleton_iff, Finset.mem_singleton]⟩
  ofList states := ⟨_, rfl, keeps_ofList states⟩
  add state keeps := ⟨_, congrArg some (Prod.ext (keeps.add state).1 rfl), (keeps.add state).2⟩
  extend added keeps := ⟨_, rfl, keeps.union (keeps_ofList added)⟩
  union keeps keeps' := keeps.union keeps'
  contains state keeps := keeps.contains_eq state
  isEmpty keeps := by
    rw [Bool.eq_iff_iff, decide_eq_true_iff, ← keeps.eq_iff keeps_empty]
    exact Std.ExtTreeSet.isEmpty_iff
  size keeps := keeps.size_eq
  toList keeps := keeps.toList_eq
  equal keeps keeps' := by
    rw [Bool.eq_iff_iff, decide_eq_true_iff, ← keeps.eq_iff keeps']
    exact beq_iff_eq
  hashWords keeps := by
    change List.map _ _ ++ [_] = _
    rw [keeps.toList_eq, keeps.size_eq]
  render keeps := by
    change "[" ++ _ ++ "]" = _
    rw [keeps.toList_eq]
  inspect keeps := by
    change "\x7b" ++ _ ++ "\x7d" = _
    rw [keeps.toList_eq]

end StateSet

/-! ## Vectors of bits -/

namespace BitSet

variable {Bits : Type} [GrowableBits Bits]

/-- What sets offer that are kept as vectors of bits. -/
def kind (Bits : Type) [GrowableBits Bits] : SetKind (BitSet Bits) where
  empty := empty
  withCapacity := withCapacity
  singleton := singleton
  ofList := ofList
  add := add
  extend := extend
  union := union
  contains := contains
  isEmpty := isEmpty
  size := size
  toList := toList
  equal := equal
  hashWords := hashWords
  render := render
  inspect := inspect

/-- The bits that are on are those of the members; in particular, no bit is on that has
    no state. -/
def Keeps (set : BitSet Bits) (members : Finset StateId) : Prop :=
  ∀ index, GrowableBits.contains set.bits index = true ↔ ∃ state ∈ members, state.toNat = index

section

variable [LawfulBits Bits] {set other : BitSet Bits} {members members' : Finset StateId}

/-- Reserving makes room and leaves every bit as it was. -/
theorem le_length_reserve (set : BitSet Bits) (capacity : Nat) : capacity ≤ GrowableBits.length (set.reserve capacity) := by
  rw [reserve]
  split
  · exact LawfulBits.le_length_grow set.bits capacity
  · rename_i room
    exact Nat.not_lt.mp room

theorem contains_reserve (set : BitSet Bits) (capacity index : Nat) :
    GrowableBits.contains (set.reserve capacity) index = GrowableBits.contains set.bits index := by
  rw [reserve]
  split
  · exact LawfulBits.contains_grow set.bits capacity index
  · rfl

theorem keeps_empty : (empty : BitSet Bits).Keeps ∅ := by
  intro index
  simp [empty, LawfulBits.contains_empty]

theorem keeps_withCapacity (capacity : Nat) : (withCapacity capacity : BitSet Bits).Keeps ∅ := by
  intro index
  simp [withCapacity, LawfulBits.contains_withCapacity]

namespace Keeps

omit [LawfulBits Bits] in
theorem contains_eq (keeps : set.Keeps members) (state : StateId) : set.contains state = decide (state ∈ members) := by
  rw [Bool.eq_iff_iff, decide_eq_true_iff, contains, keeps]
  constructor
  · rintro ⟨member, listed, same⟩
    rwa [← UInt32.toNat_inj.mp same]
  · intro listed
    exact ⟨state, listed, rfl⟩

/-- The bit of a state is turned on, where need be after the vector has grown. -/
theorem add (keeps : set.Keeps members) (state : StateId) :
    ∃ after, set.add state = some (decide (state ∉ members), after) ∧ after.Keeps (insert state members) := by
  obtain ⟨after, put, on⟩ := LawfulBits.put?_of_lt _ _ (set.le_length_reserve (state.toNat + 1))
  have known : GrowableBits.contains set.bits state.toNat = decide (state ∈ members) := keeps.contains_eq state
  refine ⟨⟨after⟩, ?_, fun index => ?_⟩
  · simp [BitSet.add, put, contains_reserve, known]
  · rw [on, contains_reserve, Bool.or_eq_true, decide_eq_true_iff, keeps, Finset.exists_mem_insert, eq_comm]

theorem extend (keeps : set.Keeps members) (states : List StateId) :
    ∃ after, set.extend states = some after ∧ after.Keeps (members ∪ states.toFinset) := by
  induction states generalizing set members with
  | nil => exact ⟨set, rfl, by simpa using keeps⟩
  | cons state rest ih =>
    obtain ⟨between, added, keepsBetween⟩ := keeps.add state
    obtain ⟨after, extended, keepsAfter⟩ := ih keepsBetween
    refine ⟨after, ?_, ?_⟩
    · rw [← extended]
      simp [BitSet.extend, added]
    · rw [List.toFinset_cons, Finset.union_insert, ← Finset.insert_union]
      exact keepsAfter

/-- The vector grows to the length of the other one before their bits are joined. -/
theorem union (keeps : set.Keeps members) (keeps' : other.Keeps members') :
    (set.union other).Keeps (members ∪ members') := by
  intro index
  rw [BitSet.union, LawfulBits.contains_union _ _ _ (set.le_length_reserve _), contains_reserve, Bool.or_eq_true, keeps,
    keeps']
  simp only [Finset.mem_union, or_and_right, exists_or]

theorem ones_eq (keeps : set.Keeps members) : GrowableBits.ones set.bits = (ascending members).map UInt32.toNat := by
  have sorted : ((ascending members).map UInt32.toNat).Pairwise (· < ·) :=
    List.pairwise_map.mpr (pairwise_ascending members)
  rw [LawfulBits.ones_eq]
  refine (List.pairwise_lt_range.filter _).eq_of_mem_iff sorted fun index => ?_
  -- Only bits inside the vector are listed; a bit that is on lies inside, so none is lost.
  have inside : GrowableBits.contains set.bits index = true → index < GrowableBits.length set.bits := by
    intro on
    refine Nat.not_le.mp fun outside => ?_
    rw [LawfulBits.contains_of_length_le set.bits index outside] at on
    exact absurd on (by decide)
  rw [List.mem_filter, List.mem_range, and_iff_right_of_imp inside, keeps, List.mem_map]
  simp only [mem_ascending]

theorem toList_eq (keeps : set.Keeps members) : set.toList = ascending members := by
  rw [toList, keeps.ones_eq, List.map_map]
  exact (List.map_congr_left fun state _ => UInt32.ofNat_toNat).trans (List.map_id _)

theorem size_eq (keeps : set.Keeps members) : set.size = members.card := by
  have count : set.size = (GrowableBits.ones set.bits).length := by
    rw [size, LawfulBits.countOnes_eq, LawfulBits.ones_eq, List.countP_eq_length_filter]
  rw [count, keeps.ones_eq, List.length_map, length_ascending]

/-- Vectors of different lengths have the same bits on exactly when they keep the same
    members. -/
theorem ones_eq_iff (keeps : set.Keeps members) (keeps' : other.Keeps members') :
    GrowableBits.ones set.bits = GrowableBits.ones other.bits ↔ members = members' := by
  rw [keeps.ones_eq, keeps'.ones_eq, List.map_inj_right fun _ _ => UInt32.toNat_inj.mp]
  constructor
  · intro same
    refine Finset.ext fun state => ?_
    rw [← mem_ascending, same, mem_ascending]
  · rintro rfl
    rfl

theorem hashWords_eq (keeps : set.Keeps members) :
    set.hashWords = (ascending members).map UInt32.toNat ++ [members.card] := by
  rw [hashWords, keeps.ones_eq, keeps.size_eq]

theorem isEmpty_eq (keeps : set.Keeps members) : set.isEmpty = decide (members = ∅) := by
  rw [Bool.eq_iff_iff, decide_eq_true_iff, isEmpty, LawfulBits.isClear_iff]
  constructor
  · intro clear
    refine Finset.eq_empty_iff_forall_notMem.mpr fun state listed => ?_
    have on := (keeps state.toNat).mpr ⟨state, listed, rfl⟩
    rw [clear] at on
    exact absurd on (by decide)
  · rintro rfl index
    refine Bool.eq_false_iff.mpr fun on => ?_
    obtain ⟨state, listed, _⟩ := (keeps index).mp on
    exact Finset.notMem_empty state listed

end Keeps

theorem represents : (kind Bits).Represents Keeps where
  empty := keeps_empty
  withCapacity := keeps_withCapacity
  singleton state capacity := by
    have start : (withCapacity capacity : BitSet Bits).Keeps ∅ := keeps_withCapacity capacity
    obtain ⟨after, added, keeps⟩ := start.add state
    exact ⟨after, by simp [kind, singleton, added], keeps⟩
  ofList states := by
    have start : (empty : BitSet Bits).Keeps ∅ := keeps_empty
    obtain ⟨after, extended, keeps⟩ := start.extend states
    exact ⟨after, extended, by simpa using keeps⟩
  add state keeps := keeps.add state
  extend states keeps := keeps.extend states
  union keeps keeps' := keeps.union keeps'
  contains state keeps := keeps.contains_eq state
  isEmpty keeps := keeps.isEmpty_eq
  size keeps := keeps.size_eq
  toList keeps := keeps.toList_eq
  equal keeps keeps' := by
    rw [Bool.eq_iff_iff, decide_eq_true_iff, ← keeps.ones_eq_iff keeps']
    exact beq_iff_eq
  hashWords keeps := keeps.hashWords_eq
  render keeps := by
    change "[" ++ _ ++ "]" = _
    rw [keeps.toList_eq]
  inspect keeps := by
    change "\x7b" ++ _ ++ "\x7d" = _
    rw [keeps.toList_eq]

end

end BitSet

/-! ## Histories of calls -/

/-- Ordered sets and vectors of bits answer every history of calls as finite sets do, and
    no call stops the program. At any point two vectors compare equal exactly when they
    have the same members, and they are hashed alike exactly when they compare equal,
    however long they were made and have grown. -/
theorem answers_represented (Bits : Type) [GrowableBits Bits] [LawfulBits Bits] (calls : List SetCall) :
    let expected := (answers (fun _ => ∅) calls).1
    let members := (answers (fun _ => ∅) calls).2
    (∃ registers : Registers StateSet, StateSet.kind.answers? (fun _ => ∅) calls = some (expected, registers) ∧
      ∀ register state, state ∈ registers register ↔ state ∈ members register) ∧
    ∃ registers : Registers (BitSet Bits),
      (BitSet.kind Bits).answers? (fun _ => BitSet.empty) calls = some (expected, registers) ∧
      ∀ register other,
        (∀ state, (registers register).contains state = decide (state ∈ members register)) ∧
        (registers register).toList.Pairwise (· < ·) ∧
        ((registers register).equal (registers other) = true ↔
          ∀ state, (registers register).contains state = (registers other).contains state) ∧
        ((registers register).hashWords = (registers other).hashWords ↔
          (registers register).equal (registers other) = true) := by
  constructor
  · exact StateSet.represents.answers?_eq (fun _ => StateSet.keeps_empty) calls
  · have start : ∀ _ : Register, (BitSet.empty : BitSet Bits).Keeps ∅ := fun _ => BitSet.keeps_empty
    obtain ⟨registers, answered, keeps⟩ := BitSet.represents.answers?_eq start calls
    refine ⟨registers, answered, fun register other => ⟨(keeps register).contains_eq, ?_, ?_, ?_⟩⟩
    · rw [(keeps register).toList_eq]
      exact pairwise_ascending _
    · rw [BitSet.equal, beq_iff_eq, (keeps register).ones_eq_iff (keeps other), Finset.ext_iff]
      simp only [(keeps register).contains_eq, (keeps other).contains_eq, decide_eq_decide]
    · rw [BitSet.equal, beq_iff_eq, BitSet.hashWords, BitSet.hashWords]
      constructor
      · intro same
        exact (List.append_inj' same rfl).1
      · intro same
        rw [same, (keeps register).size_eq, (keeps other).size_eq, ((keeps register).ones_eq_iff (keeps other)).mp same]

/-- Two vectors of bits for one member, of which one was made too short and the other one
    much too long, and what becomes of them. -/
theorem answers_represented_lengths :
    let calls : List SetCall :=
      [.singleton "short" 2 1, .withCapacity "long" 90, .add "long" 2, .equal "short" "long", .add "short" 70,
        .equal "short" "long", .contains "long" 4294967295, .union "long" "short", .equal "long" "short", .size "long",
        .add "long" 70]
    (answers (fun _ => ∅) calls).1 =
        [.done, .done, .flag true, .flag true, .flag true, .flag false, .flag false, .done, .flag true, .number 2,
          .flag false] ∧
      ∃ registers : Registers (BitSet BitList),
        (BitSet.kind BitList).answers? (fun _ => BitSet.empty) calls = some ((answers (fun _ => ∅) calls).1, registers) ∧
          (registers "long").hashWords = (registers "short").hashWords := by
  intro calls
  refine ⟨by decide, ?_⟩
  obtain ⟨registers, answered, facts⟩ := (answers_represented BitList calls).2
  have same : (answers (fun _ => ∅) calls).2 "long" = (answers (fun _ => ∅) calls).2 "short" := by decide
  refine ⟨registers, answered, (facts "long" "short").2.2.2.mpr ((facts "long" "short").2.2.1.mpr fun state => ?_)⟩
  rw [(facts "long" "long").1, (facts "short" "short").1, same]

end RegexCompiler
