import Mathlib.Data.Finset.Sort
import RegexCompiler.StateSet

namespace RegexCompiler

/-- The name of a register. -/
abbrev Register := String

/-- What the registers hold. -/
abbrev Registers (Set : Type) := Register → Set

/-- Puts a set into a register. -/
def Registers.put {Set : Type} (registers : Registers Set) (target : Register) (set : Set) : Registers Set :=
  fun register => if register = target then set else registers register

/-- A call on sets in registers. The first group of calls makes a set, the second one
    changes a set, and the third one only asks. -/
inductive SetCall where
  | empty (target : Register)
  | withCapacity (target : Register) (capacity : Nat)
  | singleton (target : Register) (state : StateId) (capacity : Nat)
  | ofList (target : Register) (states : List StateId)
  | copy (target source : Register)
  | add (target : Register) (state : StateId)
  | extend (target : Register) (states : List StateId)
  | union (target source : Register)
  | contains (register : Register) (state : StateId)
  | isEmpty (register : Register)
  | size (register : Register)
  | toList (register : Register)
  | equal (register other : Register)
  | hashWords (register : Register)
  | render (register : Register)
  | inspect (register : Register)
deriving DecidableEq

/-- What a call tells. -/
inductive SetAnswer where
  | done
  | flag (value : Bool)
  | number (value : Nat)
  | states (listed : List StateId)
  | words (listed : List Nat)
  | text (shown : String)
deriving DecidableEq

/-! ## Finite sets -/

/-- The members in ascending order. -/
def ascending (members : Finset StateId) : List StateId :=
  members.sort

/-- What finite sets answer to a call, and what the registers hold then. -/
def SetCall.answer (registers : Registers (Finset StateId)) : SetCall → SetAnswer × Registers (Finset StateId)
  | .empty target => (.done, registers.put target ∅)
  | .withCapacity target _ => (.done, registers.put target ∅)
  | .singleton target state _ => (.done, registers.put target {state})
  | .ofList target states => (.done, registers.put target states.toFinset)
  | .copy target source => (.done, registers.put target (registers source))
  | .add target state =>
    (.flag (decide (state ∉ registers target)), registers.put target (insert state (registers target)))
  | .extend target states => (.done, registers.put target (registers target ∪ states.toFinset))
  | .union target source => (.done, registers.put target (registers target ∪ registers source))
  | .contains register state => (.flag (decide (state ∈ registers register)), registers)
  | .isEmpty register => (.flag (decide (registers register = ∅)), registers)
  | .size register => (.number (registers register).card, registers)
  | .toList register => (.states (ascending (registers register)), registers)
  | .equal register other => (.flag (decide (registers register = registers other)), registers)
  | .hashWords register =>
    (.words ((ascending (registers register)).map UInt32.toNat ++ [(registers register).card]), registers)
  | .render register =>
    (.text ("[" ++ String.intercalate ", " ((ascending (registers register)).map (·.toNat.repr)) ++ "]"), registers)
  | .inspect register =>
    (.text ("\x7b" ++ String.intercalate ", " ((ascending (registers register)).map (·.toNat.repr)) ++ "\x7d"), registers)

/-- What finite sets answer to a history of calls. -/
def answers (registers : Registers (Finset StateId)) : List SetCall → List SetAnswer × Registers (Finset StateId)
  | [] => ([], registers)
  | call :: rest =>
    let (answer, registers) := call.answer registers
    let (later, registers) := answers registers rest
    (answer :: later, registers)

/-! ## Kinds of sets -/

/-- What a kind of sets offers to its callers. A call that stops the program gives
    nothing back. -/
structure SetKind (Set : Type) where
  empty : Set
  withCapacity : Nat → Set
  singleton : StateId → Nat → Option Set
  ofList : List StateId → Option Set
  add : Set → StateId → Option (Bool × Set)
  extend : Set → List StateId → Option Set
  union : Set → Set → Set
  contains : Set → StateId → Bool
  isEmpty : Set → Bool
  size : Set → Nat
  toList : Set → List StateId
  equal : Set → Set → Bool
  hashWords : Set → List Nat
  render : Set → String
  inspect : Set → String

namespace SetKind

variable {Set : Type} (kind : SetKind Set)

/-- What a kind of sets answers to a call, and what the registers hold then. -/
def answer? (registers : Registers Set) : SetCall → Option (SetAnswer × Registers Set)
  | .empty target => return (.done, registers.put target kind.empty)
  | .withCapacity target capacity => return (.done, registers.put target (kind.withCapacity capacity))
  | .singleton target state capacity => return (.done, registers.put target (← kind.singleton state capacity))
  | .ofList target states => return (.done, registers.put target (← kind.ofList states))
  | .copy target source => return (.done, registers.put target (registers source))
  | .add target state => do
    let (isNew, set) ← kind.add (registers target) state
    return (.flag isNew, registers.put target set)
  | .extend target states => return (.done, registers.put target (← kind.extend (registers target) states))
  | .union target source => return (.done, registers.put target (kind.union (registers target) (registers source)))
  | .contains register state => return (.flag (kind.contains (registers register) state), registers)
  | .isEmpty register => return (.flag (kind.isEmpty (registers register)), registers)
  | .size register => return (.number (kind.size (registers register)), registers)
  | .toList register => return (.states (kind.toList (registers register)), registers)
  | .equal register other => return (.flag (kind.equal (registers register) (registers other)), registers)
  | .hashWords register => return (.words (kind.hashWords (registers register)), registers)
  | .render register => return (.text (kind.render (registers register)), registers)
  | .inspect register => return (.text (kind.inspect (registers register)), registers)

/-- What a kind of sets answers to a history of calls. -/
def answers? (registers : Registers Set) : List SetCall → Option (List SetAnswer × Registers Set)
  | [] => some ([], registers)
  | call :: rest => do
    let (answer, registers) ← kind.answer? registers call
    let (later, registers) ← answers? registers rest
    return (answer :: later, registers)

/-- Sets of the kind stand for finite sets, and single calls on both agree. No call on
    them stops the program. -/
structure Represents (kind : SetKind Set) (keeps : Set → Finset StateId → Prop) : Prop where
  empty : keeps kind.empty ∅
  withCapacity (capacity : Nat) : keeps (kind.withCapacity capacity) ∅
  singleton (state : StateId) (capacity : Nat) : ∃ set, kind.singleton state capacity = some set ∧ keeps set {state}
  ofList (states : List StateId) : ∃ set, kind.ofList states = some set ∧ keeps set states.toFinset
  add {set : Set} {members : Finset StateId} (state : StateId) : keeps set members →
    ∃ after, kind.add set state = some (decide (state ∉ members), after) ∧ keeps after (insert state members)
  extend {set : Set} {members : Finset StateId} (states : List StateId) : keeps set members →
    ∃ after, kind.extend set states = some after ∧ keeps after (members ∪ states.toFinset)
  union {set other : Set} {members members' : Finset StateId} : keeps set members → keeps other members' →
    keeps (kind.union set other) (members ∪ members')
  contains {set : Set} {members : Finset StateId} (state : StateId) : keeps set members →
    kind.contains set state = decide (state ∈ members)
  isEmpty {set : Set} {members : Finset StateId} : keeps set members → kind.isEmpty set = decide (members = ∅)
  size {set : Set} {members : Finset StateId} : keeps set members → kind.size set = members.card
  toList {set : Set} {members : Finset StateId} : keeps set members → kind.toList set = ascending members
  equal {set other : Set} {members members' : Finset StateId} : keeps set members → keeps other members' →
    kind.equal set other = decide (members = members')
  hashWords {set : Set} {members : Finset StateId} : keeps set members →
    kind.hashWords set = (ascending members).map UInt32.toNat ++ [members.card]
  render {set : Set} {members : Finset StateId} : keeps set members →
    kind.render set = "[" ++ String.intercalate ", " ((ascending members).map (·.toNat.repr)) ++ "]"
  inspect {set : Set} {members : Finset StateId} : keeps set members →
    kind.inspect set = "\x7b" ++ String.intercalate ", " ((ascending members).map (·.toNat.repr)) ++ "\x7d"

namespace Represents

variable {kind : SetKind Set} {keeps : Set → Finset StateId → Prop} (represents : kind.Represents keeps)
  {registers : Registers Set} {members : Registers (Finset StateId)}

theorem put {target : Register} {set : Set} {added : Finset StateId}
    (held : ∀ register, keeps (registers register) (members register)) (kept : keeps set added) (register : Register) :
    keeps (registers.put target set register) (members.put target added register) := by
  simp only [Registers.put]
  split
  · exact kept
  · exact held register

include represents

theorem answer?_eq (held : ∀ register, keeps (registers register) (members register)) (call : SetCall) :
    ∃ after, kind.answer? registers call = some ((call.answer members).1, after) ∧
      ∀ register, keeps (after register) ((call.answer members).2 register) := by
  cases call with
  | empty target => exact ⟨_, rfl, put held represents.empty⟩
  | withCapacity target capacity => exact ⟨_, rfl, put held (represents.withCapacity capacity)⟩
  | singleton target state capacity =>
    obtain ⟨set, made, kept⟩ := represents.singleton state capacity
    exact ⟨_, by simp [answer?, made, SetCall.answer], put held kept⟩
  | ofList target states =>
    obtain ⟨set, made, kept⟩ := represents.ofList states
    exact ⟨_, by simp [answer?, made, SetCall.answer], put held kept⟩
  | copy target source => exact ⟨_, rfl, put held (held source)⟩
  | add target state =>
    obtain ⟨after, added, kept⟩ := represents.add state (held target)
    exact ⟨_, by simp [answer?, added, SetCall.answer], put held kept⟩
  | extend target states =>
    obtain ⟨after, extended, kept⟩ := represents.extend states (held target)
    exact ⟨_, by simp [answer?, extended, SetCall.answer], put held kept⟩
  | union target source => exact ⟨_, rfl, put held (represents.union (held target) (held source))⟩
  | contains register state => exact ⟨_, by rw [answer?, represents.contains state (held register)]; rfl, held⟩
  | isEmpty register => exact ⟨_, by rw [answer?, represents.isEmpty (held register)]; rfl, held⟩
  | size register => exact ⟨_, by rw [answer?, represents.size (held register)]; rfl, held⟩
  | toList register => exact ⟨_, by rw [answer?, represents.toList (held register)]; rfl, held⟩
  | equal register other => exact ⟨_, by rw [answer?, represents.equal (held register) (held other)]; rfl, held⟩
  | hashWords register => exact ⟨_, by rw [answer?, represents.hashWords (held register)]; rfl, held⟩
  | render register => exact ⟨_, by rw [answer?, represents.render (held register)]; rfl, held⟩
  | inspect register => exact ⟨_, by rw [answer?, represents.inspect (held register)]; rfl, held⟩

theorem answers?_eq (held : ∀ register, keeps (registers register) (members register)) (calls : List SetCall) :
    ∃ after, kind.answers? registers calls = some ((answers members calls).1, after) ∧
      ∀ register, keeps (after register) ((answers members calls).2 register) := by
  induction calls generalizing registers members with
  | nil => exact ⟨registers, rfl, held⟩
  | cons call rest ih =>
    obtain ⟨between, first, heldBetween⟩ := represents.answer?_eq held call
    obtain ⟨after, later, heldAfter⟩ := ih heldBetween
    exact ⟨after, by simp [answers?, first, later, answers], heldAfter⟩

end Represents

end SetKind

end RegexCompiler
