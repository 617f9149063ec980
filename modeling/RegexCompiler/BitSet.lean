import RegexCompiler.Inspection
import RegexCompiler.StateSet

/-!
A set of states as a vector of bits. Vectors of different lengths can keep the same set, so no answer
of a set may depend on how long its vector is.
-/

namespace RegexCompiler

/-! ## Vectors of bits -/

/-- Vectors of bits that are numbered from zero. -/
class GrowableBits (Bits : Type) where
  empty : Bits
  withCapacity : Nat → Bits
  length : Bits → Nat
  grow : Bits → Nat → Bits
  /-- Turns a bit on and tells whether it was; the program stops if there is no such
      bit. -/
  put? : Bits → Nat → Option (Bool × Bits)
  contains : Bits → Nat → Bool
  isClear : Bits → Bool
  countOnes : Bits → Nat
  ones : Bits → List Nat
  union : Bits → Bits → Bits

open GrowableBits in
/-- New bits are off, and a bit that a vector does not have counts as off. -/
class LawfulBits (Bits : Type) [GrowableBits Bits] : Prop where
  contains_empty (index : Nat) : contains (empty : Bits) index = false
  contains_withCapacity (capacity index : Nat) : contains (withCapacity capacity : Bits) index = false
  contains_of_length_le (bits : Bits) (index : Nat) : length bits ≤ index → contains bits index = false
  le_length_grow (bits : Bits) (capacity : Nat) : capacity ≤ length (grow bits capacity)
  contains_grow (bits : Bits) (capacity index : Nat) : contains (grow bits capacity) index = contains bits index
  put?_of_lt (bits : Bits) (index : Nat) : index < length bits → ∃ after,
    put? bits index = some (contains bits index, after) ∧
      ∀ other, contains after other = (decide (other = index) || contains bits other)
  isClear_iff (bits : Bits) : isClear bits = true ↔ ∀ index, contains bits index = false
  countOnes_eq (bits : Bits) : countOnes bits = (List.range (length bits)).countP (contains bits)
  ones_eq (bits : Bits) : ones bits = (List.range (length bits)).filter (contains bits)
  contains_union (bits other : Bits) (index : Nat) : length other ≤ length bits →
    contains (union bits other) index = (contains bits index || contains other index)

/-- Bits in a list. -/
structure BitList where
  bits : List Bool
deriving DecidableEq

namespace BitList

/-- Whether a bit is on. -/
def isOn (vector : BitList) (index : Nat) : Bool :=
  vector.bits[index]?.getD false

instance : GrowableBits BitList where
  empty := ⟨[]⟩
  withCapacity capacity := ⟨List.replicate capacity false⟩
  length vector := vector.bits.length
  grow vector capacity := ⟨vector.bits ++ List.replicate (capacity - vector.bits.length) false⟩
  put? vector index :=
    if index < vector.bits.length then some (vector.isOn index, ⟨vector.bits.set index true⟩) else none
  contains := isOn
  isClear vector := vector.bits.all (!·)
  countOnes vector := vector.bits.count true
  ones vector := (List.range vector.bits.length).filter vector.isOn
  union vector other :=
    ⟨(List.range (max vector.bits.length other.bits.length)).map fun index => vector.isOn index || other.isOn index⟩

theorem isOn_of_length_le {vector : BitList} {index : Nat} (outside : vector.bits.length ≤ index) :
    vector.isOn index = false := by
  rw [isOn, List.getElem?_eq_none outside, Option.getD_none]

theorem isOn_append_replicate (vector : BitList) (count index : Nat) :
    isOn ⟨vector.bits ++ List.replicate count false⟩ index = vector.isOn index := by
  simp only [isOn, List.getElem?_append]
  split
  · rfl
  · rename_i outside
    rw [List.getElem?_eq_none (Nat.not_lt.mp outside), List.getElem?_replicate]
    split <;> rfl

theorem isOn_set {vector : BitList} {index : Nat} (inside : index < vector.bits.length) (other : Nat) :
    isOn ⟨vector.bits.set index true⟩ other = (decide (other = index) || vector.isOn other) := by
  simp only [isOn, List.getElem?_set]
  by_cases same : index = other
  · subst same
    simp [inside]
  · simp [same, Ne.symm same]

theorem isOn_union (vector other : BitList) (index : Nat) :
    isOn (GrowableBits.union vector other) index = (vector.isOn index || other.isOn index) := by
  simp only [GrowableBits.union, isOn, List.getElem?_map]
  by_cases inside : index < max vector.bits.length other.bits.length
  · rw [List.getElem?_range inside]
    rfl
  · have outside : vector.bits.length ≤ index := by omega
    have outside' : other.bits.length ≤ index := by omega
    simp [outside, outside', inside]

theorem map_isOn_range (vector : BitList) : (List.range vector.bits.length).map vector.isOn = vector.bits := by
  refine List.ext_getElem (by simp) fun index _ inside => ?_
  simp [isOn, inside]

instance : LawfulBits BitList where
  contains_empty _ := rfl
  contains_withCapacity capacity index := isOn_append_replicate ⟨[]⟩ capacity index
  contains_of_length_le _ _ := isOn_of_length_le
  le_length_grow vector capacity := by
    simp only [GrowableBits.length, GrowableBits.grow, List.length_append, List.length_replicate]
    omega
  contains_grow vector _ index := isOn_append_replicate vector _ index
  put?_of_lt _ _ inside := ⟨_, if_pos inside, isOn_set inside⟩
  isClear_iff vector := by
    simp only [GrowableBits.isClear, GrowableBits.contains]
    rw [← map_isOn_range, List.all_map, List.all_eq_true]
    constructor
    · intro off index
      by_cases inside : index < vector.bits.length
      · simpa using off index (List.mem_range.mpr inside)
      · exact isOn_of_length_le (Nat.not_lt.mp inside)
    · intro off index _
      simp [off index]
  countOnes_eq vector := by
    simp only [GrowableBits.countOnes, GrowableBits.contains, GrowableBits.length]
    have listed := congrArg (List.count true) (map_isOn_range vector)
    rw [← listed, List.count, List.countP_map]
    simp [Function.comp_def]
  ones_eq _ := rfl
  contains_union vector other index _ := isOn_union vector other index

end BitList

/-! ## Sets -/

/-- A set of states as a vector of bits. Vectors of the same set may differ in length, so
    sets are compared by `BitSet.equal`. -/
structure BitSet (Bits : Type) where
  bits : Bits

namespace BitSet

variable {Bits : Type} [GrowableBits Bits]

/-- The set without members. -/
def empty : BitSet Bits := ⟨GrowableBits.empty⟩

/-- The set without members, with bits for the states below the given number. -/
def withCapacity (capacity : Nat) : BitSet Bits := ⟨GrowableBits.withCapacity capacity⟩

/-- The vector of a set, grown if it has fewer bits than the given number. -/
def reserve (set : BitSet Bits) (capacity : Nat) : Bits :=
  if GrowableBits.length set.bits < capacity then GrowableBits.grow set.bits capacity else set.bits

/-- Adds a state and tells whether it was not a member before. -/
def add (set : BitSet Bits) (state : StateId) : Option (Bool × BitSet Bits) := do
  let (known, after) ← GrowableBits.put? (set.reserve (state.toNat + 1)) state.toNat
  return (!known, ⟨after⟩)

/-- Adds states one after another. -/
def extend (set : BitSet Bits) (states : List StateId) : Option (BitSet Bits) :=
  states.foldlM (fun set state => (set.add state).map (·.2)) set

/-- The set with one member. -/
def singleton (state : StateId) (capacity : Nat) : Option (BitSet Bits) :=
  ((withCapacity capacity).add state).map (·.2)

/-- The set of the listed states. -/
def ofList (states : List StateId) : Option (BitSet Bits) :=
  empty.extend states

/-- The members of either set. -/
def union (set other : BitSet Bits) : BitSet Bits :=
  ⟨GrowableBits.union (set.reserve (GrowableBits.length other.bits)) other.bits⟩

/-- Whether a state is a member. -/
def contains (set : BitSet Bits) (state : StateId) : Bool :=
  GrowableBits.contains set.bits state.toNat

/-- Whether there are no members. -/
def isEmpty (set : BitSet Bits) : Bool :=
  GrowableBits.isClear set.bits

/-- How many members there are. -/
def size (set : BitSet Bits) : Nat :=
  GrowableBits.countOnes set.bits

/-- The members. -/
def toList (set : BitSet Bits) : List StateId :=
  (GrowableBits.ones set.bits).map UInt32.ofNat

/-- Whether the same bits are on in both sets. -/
def equal (set other : BitSet Bits) : Bool :=
  GrowableBits.ones set.bits == GrowableBits.ones other.bits

/-- The words that a hash of the set is computed from. -/
def hashWords (set : BitSet Bits) : List Nat :=
  GrowableBits.ones set.bits ++ [set.size]

/-- The members in brackets. -/
def render (set : BitSet Bits) : String :=
  "[" ++ String.intercalate ", " (set.toList.map (·.toNat.repr)) ++ "]"

/-- The members in braces. -/
def inspect (set : BitSet Bits) : String :=
  inspectMembers (set.toList.map (·.toNat.repr))

end BitSet

end RegexCompiler
