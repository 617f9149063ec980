import Mathlib.Data.List.Forall2
import Mathlib.Data.PFun
import RegexCompiler.Proofs.Determinization
import RegexCompiler.Proofs.Representation

/-!
The programs that compute closures, moves and deterministic automata call sets. With any kind of sets that
stands for finite sets they compute the same (`toDfa_represented`).
-/

namespace RegexCompiler

/-- A nondeterministic automaton that keeps its targets in sets of some kind. -/
structure SetNfa (Set : Type) where
  numStates : StateId
  start : StateId
  accept : StateId
  row? : StateId → Symbol → Option Set

/-- A deterministic automaton whose states stand for sets of some kind. -/
structure SetDfa (Set : Type) where
  alphabet : Alphabet
  sets : Array Set
  start : Option StateId
  finals : Set
  transitions : Std.ExtTreeMap (StateId × Char) StateId rowOrder

/-- The deterministic automaton as far as it is known, and the states that wait. -/
structure SetExploration (Set : Type) where
  dfa : SetDfa Set
  waiting : List (StateId × Set)

namespace SetKind

variable {Set : Type} (kind : SetKind Set)

/-- The automaton with its targets in sets of the kind. -/
def ofNfa (nfa : Nfa) : SetNfa Set where
  numStates := nfa.numStates
  start := nfa.start
  accept := nfa.accept
  row? source symbol := (nfa.transitions.row? source symbol).bind fun targets => kind.ofList targets.toList

/-- Adds a state to those that were found, and lets it wait if it is new. -/
def meet (met : Set × List StateId) (target : StateId) : Option (Set × List StateId) := do
  let (isNew, found) ← kind.add met.1 target
  return (found, if isNew then met.2 ++ [target] else met.2)

variable (nfa : SetNfa Set)

/-- A round of a closure takes up the first state that waits, and meets those that moves
    without reading lead to. -/
def closeRound : Set × List StateId →. Set ⊕ Set × List StateId
  | (found, []) => .some (.inl found)
  | (found, state :: rest) =>
    match nfa.row? state .epsilon with
    | none => .some (.inr (found, rest))
    | some targets => Part.ofOption (((kind.toList targets).foldlM kind.meet (found, rest)).map .inr)

/-- The given states and all that moves without reading lead to, if no call stops the
    program and its rounds end. -/
def closure (states : Set) : Part Set :=
  (kind.closeRound nfa).fix (kind.union (kind.withCapacity nfa.numStates.toNat) states, kind.toList states)

/-- The states that reading a character leads to. -/
def move (states : Set) (char : Char) : Set :=
  (kind.toList states).foldl (fun reached state =>
    match nfa.row? state (.literal char) with
    | none => reached
    | some targets => kind.union reached targets) (kind.withCapacity nfa.numStates.toNat)

/-- Finds out where a character leads to from a state. -/
def follow (source : StateId) (active : Set) (e : SetExploration Set) (char : Char) : Part (SetExploration Set) := do
  let next ← kind.closure nfa (kind.move nfa active char)
  if kind.isEmpty next then return e
  let connect (dfa : SetDfa Set) (target : StateId) : SetDfa Set :=
    { dfa with transitions := dfa.transitions.insert (source, char) target }
  match e.dfa.sets.findIdx? (kind.equal · next) with
  | some index => return { e with dfa := connect e.dfa (UInt32.ofNat index) }
  | none =>
    let target := UInt32.ofNat e.dfa.sets.size
    return {
      dfa := connect { e.dfa with sets := e.dfa.sets.push next } target
      waiting := e.waiting ++ [(target, next)] }

/-- A round of the exploration takes up the first state that waits. -/
def exploreRound : SetExploration Set →. SetDfa Set ⊕ SetExploration Set
  | ⟨dfa, []⟩ => .some (.inl dfa)
  | ⟨dfa, (source, active) :: rest⟩ =>
    (dfa.alphabet.toList.foldlM (kind.follow nfa source active) ⟨dfa, rest⟩).map .inr

/-- The deterministic automaton over an alphabet. -/
def toDfa (alphabet : Alphabet) : Part (SetDfa Set) := do
  let start ← Part.ofOption (kind.singleton nfa.start nfa.numStates.toNat)
  let initial ← kind.closure nfa start
  let dfa ← (kind.exploreRound nfa).fix {
    dfa := { alphabet, sets := #[initial], start := some 0, finals := kind.withCapacity 16, transitions := ∅ }
    waiting := [(0, initial)] }
  let accepting := dfa.sets.toList.zipIdx.filter (kind.contains ·.1 nfa.accept)
  let finals ← Part.ofOption (kind.extend dfa.finals (accepting.map fun (_, index) => UInt32.ofNat index))
  return { dfa with finals }

end SetKind

/-! ## Carrying over -/

variable {Set : Type} {keeps : Set → Finset StateId → Prop}

/-- A set of a kind has the members of an ordered set. -/
def Stands (keeps : Set → Finset StateId → Prop) (set : Set) (states : StateSet) : Prop :=
  ∃ members, keeps set members ∧ states.Keeps members

/-- The automaton has the same states and targets. -/
structure SetNfa.Carries (keeps : Set → Finset StateId → Prop) (carried : SetNfa Set) (nfa : Nfa) : Prop where
  numStates_eq : carried.numStates = nfa.numStates
  start_eq : carried.start = nfa.start
  accept_eq : carried.accept = nfa.accept
  rows : ∀ source symbol, (carried.row? source symbol).Rel (Stands keeps) (nfa.transitions.row? source symbol)

/-- The automaton has the same states, final states and transitions, and its states stand
    for sets with the same members. -/
structure SetDfa.Carries (keeps : Set → Finset StateId → Prop) (carried : SetDfa Set) (dfa : Dfa) : Prop where
  alphabet_eq : carried.alphabet = dfa.alphabet
  start_eq : carried.start = dfa.start
  transitions_eq : carried.transitions = dfa.transitions
  sets : carried.sets.toList.Forall₂ (Stands keeps) dfa.sets.toList
  finals : Stands keeps carried.finals dfa.finals

structure SetExploration.Carries (keeps : Set → Finset StateId → Prop) (carried : SetExploration Set) (e : Exploration) :
    Prop where
  dfa : carried.dfa.Carries keeps e.dfa
  waiting : carried.waiting.Forall₂ (fun item item' => item.1 = item'.1 ∧ Stands keeps item.2 item'.2) e.waiting

theorem SetNfa.Carries.row?_cases {carried : SetNfa Set} {nfa : Nfa} (carries : carried.Carries keeps nfa)
    (source : StateId) (symbol : Symbol) :
    (carried.row? source symbol = none ∧ nfa.transitions.targets source symbol = ∅) ∨
      ∃ set, carried.row? source symbol = some set ∧ Stands keeps set (nfa.transitions.targets source symbol) := by
  have row := carries.rows source symbol
  rw [TransitionTable.targets]
  generalize carried.row? source symbol = row?, nfa.transitions.row? source symbol = row?' at row ⊢
  cases row with
  | none => exact .inl ⟨rfl, rfl⟩
  | some stands => exact .inr ⟨_, rfl, stands⟩

theorem StateSet.toList_diff (states others : StateSet) :
    (states \ others).toList = states.toList.filter (!others.contains ·) := by
  refine (ascending_toList _).eq_of_mem_iff (states.ascending_toList.filter _) fun state => ?_
  rw [Std.ExtTreeSet.mem_toList, Std.ExtTreeSet.mem_diff_iff, List.mem_filter, Std.ExtTreeSet.mem_toList, Bool.not_eq_true',
    ← Bool.not_eq_true, Std.ExtTreeSet.contains_iff_mem]

theorem SetDfa.Carries.connect {carried : SetDfa Set} {dfa : Dfa} (carries : carried.Carries keeps dfa) (source : StateId)
    (char : Char) (target : StateId) :
    SetDfa.Carries keeps { carried with transitions := carried.transitions.insert (source, char) target }
      (dfa.addTransition source char target) :=
  ⟨carries.alphabet_eq, carries.start_eq, congrArg (·.insert (source, char) target) carries.transitions_eq, carries.sets,
    carries.finals⟩

theorem SetDfa.Carries.push {carried : SetDfa Set} {dfa : Dfa} (carries : carried.Carries keeps dfa) {set : Set}
    {states : StateSet} (stands : Stands keeps set states) :
    SetDfa.Carries keeps { carried with sets := carried.sets.push set } (dfa.addState states).2 := by
  refine ⟨carries.alphabet_eq, carries.start_eq, carries.transitions_eq, ?_, carries.finals⟩
  rw [Dfa.addState, Array.toList_push, Array.toList_push]
  exact List.rel_append carries.sets (.cons stands .nil)

namespace SetKind.Represents

variable {kind : SetKind Set} (represents : kind.Represents keeps)
include represents

section

variable {set other : Set} {states states' : StateSet} (stands : Stands keeps set states)
include stands

theorem toList_eq : kind.toList set = states.toList := by
  obtain ⟨members, kept, keeps⟩ := stands
  rw [represents.toList kept, keeps.toList_eq]

theorem contains_eq (state : StateId) : kind.contains set state = states.contains state := by
  obtain ⟨members, kept, keeps⟩ := stands
  rw [represents.contains state kept, keeps.contains_eq]

theorem isEmpty_eq : kind.isEmpty set = states.isEmpty := by
  obtain ⟨members, kept, keeps⟩ := stands
  exact (represents.isEmpty kept).trans (StateSet.represents.isEmpty keeps).symm

theorem equal_eq (stands' : Stands keeps other states') : kind.equal set other = (states == states') := by
  obtain ⟨members, kept, keeps⟩ := stands
  obtain ⟨members', kept', keeps'⟩ := stands'
  exact (represents.equal kept kept').trans (StateSet.represents.equal keeps keeps').symm

theorem stands_union (stands' : Stands keeps other states') : Stands keeps (kind.union set other) (states ∪ states') := by
  obtain ⟨members, kept, keeps⟩ := stands
  obtain ⟨members', kept', keeps'⟩ := stands'
  exact ⟨_, represents.union kept kept', keeps.union keeps'⟩

theorem exists_add (state : StateId) :
    ∃ after, kind.add set state = some (!states.contains state, after) ∧ Stands keeps after (states.insert state) := by
  obtain ⟨members, kept, keeps⟩ := stands
  obtain ⟨after, added, kept'⟩ := represents.add state kept
  refine ⟨after, ?_, _, kept', ?_⟩
  · rw [added, keeps.contains_eq, decide_not]
  · rw [← StateSet.add_snd]
    exact (keeps.add state).2

theorem exists_extend (added : List StateId) :
    ∃ after, kind.extend set added = some after ∧ Stands keeps after (states ∪ StateSet.ofList added) := by
  obtain ⟨members, kept, keeps⟩ := stands
  obtain ⟨after, extended, kept'⟩ := represents.extend added kept
  exact ⟨after, extended, _, kept', keeps.union (StateSet.keeps_ofList added)⟩

end

theorem stands_withCapacity (capacity : Nat) : Stands keeps (kind.withCapacity capacity) ∅ :=
  ⟨_, represents.withCapacity capacity, StateSet.keeps_empty⟩

theorem exists_singleton (state : StateId) (capacity : Nat) :
    ∃ set, kind.singleton state capacity = some set ∧ Stands keeps set {state} := by
  obtain ⟨set, made, kept⟩ := represents.singleton state capacity
  refine ⟨set, made, _, kept, fun other => ?_⟩
  rw [StateSet.mem_singleton_iff, Finset.mem_singleton]

theorem carries_ofNfa (nfa : Nfa) : (kind.ofNfa nfa).Carries keeps nfa where
  numStates_eq := rfl
  start_eq := rfl
  accept_eq := rfl
  rows source symbol := by
    change ((nfa.transitions.row? source symbol).bind _).Rel _ _
    cases nfa.transitions.row? source symbol with
    | none => exact .none
    | some targets =>
      obtain ⟨set, made, kept⟩ := represents.ofList targets.toList
      rw [Option.bind_some, made]
      refine .some ⟨_, kept, fun state => ?_⟩
      rw [List.mem_toFinset, Std.ExtTreeSet.mem_toList]

/-! ### Closures and moves -/

/-- Those states wait that were not met before. -/
theorem exists_foldlM_meet {found : Set} {states : StateSet} (stands : Stands keeps found states)
    (waiting : List StateId) {targets : List StateId} (distinct : targets.Nodup) :
    ∃ after, targets.foldlM kind.meet (found, waiting) =
        some (after, waiting ++ targets.filter (!states.contains ·)) ∧
      Stands keeps after (states ∪ StateSet.ofList targets) := by
  induction targets generalizing found states waiting with
  | nil =>
    have same : states ∪ StateSet.ofList [] = states := Std.ExtTreeSet.ext_mem fun state => by simp
    exact ⟨found, by simp, by rwa [same]⟩
  | cons target rest ih =>
    rw [List.nodup_cons] at distinct
    obtain ⟨between, added, standsBetween⟩ := represents.exists_add stands target
    have others : rest.filter (!(states.insert target).contains ·) = rest.filter (!states.contains ·) := by
      refine List.filter_congr fun state member => ?_
      have differ : state ≠ target := fun same => distinct.1 (same ▸ member)
      rw [Bool.not_inj_iff, Bool.eq_iff_iff, Std.ExtTreeSet.contains_iff_mem, Std.ExtTreeSet.contains_iff_mem,
        StateSet.mem_insert_iff, or_iff_right differ]
    have same : states.insert target ∪ StateSet.ofList rest = states ∪ StateSet.ofList (target :: rest) :=
      Std.ExtTreeSet.ext_mem fun state => by
        rw [Std.ExtTreeSet.mem_union_iff, Std.ExtTreeSet.mem_union_iff, StateSet.mem_insert_iff, StateSet.mem_ofList,
          StateSet.mem_ofList, List.mem_cons, or_left_comm, or_assoc]
    obtain ⟨after, met, standsAfter⟩ := ih standsBetween
      (if !states.contains target then waiting ++ [target] else waiting) distinct.2
    refine ⟨after, ?_, same ▸ standsAfter⟩
    rw [List.foldlM_cons, meet, added]
    refine met.trans ?_
    rw [others, List.filter_cons]
    split <;> simp

variable {carried : SetNfa Set} {nfa : Nfa} (carries : carried.Carries keeps nfa)
include carries

theorem close_cons {found : Set} {states : StateSet} (stands : Stands keeps found states) (state : StateId)
    (rest : List StateId) :
    let fresh := nfa.transitions.targets state .epsilon \ states
    ∃ after, (kind.closeRound carried).fix (found, state :: rest) =
        (kind.closeRound carried).fix (after, rest ++ fresh.toList) ∧
      Stands keeps after (states ∪ fresh) := by
  intro fresh
  rcases carries.row?_cases state .epsilon with ⟨noRow, none⟩ | ⟨set, row, standsTargets⟩
  · have gone : fresh = ∅ := (congrArg (· \ states) none).trans (StateSet.empty_diff states)
    refine ⟨found, PFun.fix_fwd_eq ?_, ?_⟩
    · rw [closeRound, noRow, gone, Std.ExtTreeSet.toList_eq_nil_iff.mpr rfl, List.append_nil]
      exact Part.mem_some _
    · rwa [gone, StateSet.union_empty]
  · have distinct := (nfa.transitions.targets state .epsilon).nodup_toList
    obtain ⟨after, met, standsAfter⟩ := represents.exists_foldlM_meet stands rest distinct
    have same : states ∪ StateSet.ofList (nfa.transitions.targets state .epsilon).toList = states ∪ fresh :=
      Std.ExtTreeSet.ext_mem fun state => by
        simp only [fresh, Std.ExtTreeSet.mem_union_iff, StateSet.mem_ofList, Std.ExtTreeSet.mem_toList,
          Std.ExtTreeSet.mem_diff_iff]
        tauto
    refine ⟨after, PFun.fix_fwd_eq ?_, same ▸ standsAfter⟩
    rw [closeRound, row]
    simp only [represents.toList_eq standsTargets, met]
    rw [StateSet.toList_diff]
    exact Part.mem_some _

theorem exists_close (waiting : List StateId) (states : StateSet) : ∀ found, Stands keeps found states →
    ∃ closed, (kind.closeRound carried).fix (found, waiting) = .some closed ∧
      Stands keeps closed (search (nfa.transitions.targets · .epsilon) waiting states) := by
  fun_induction search (nfa.transitions.targets · .epsilon) waiting states with
  | case1 states =>
    intro found stands
    exact ⟨found, Part.eq_some_iff.mpr (PFun.fix_stop (Part.mem_some _)), stands⟩
  | case2 states state rest fresh none ih =>
    intro found stands
    obtain ⟨after, taken, standsAfter⟩ := represents.close_cons carries stands state rest
    have gone : nfa.transitions.targets state .epsilon \ states = ∅ := Std.ExtTreeSet.isEmpty_iff.mp none
    rw [gone, StateSet.union_empty] at standsAfter
    rw [gone, Std.ExtTreeSet.toList_eq_nil_iff.mpr rfl, List.append_nil] at taken
    obtain ⟨closed, closes, standsClosed⟩ := ih after standsAfter
    exact ⟨closed, taken.trans closes, standsClosed⟩
  | case3 states state rest fresh some ih =>
    intro found stands
    obtain ⟨after, taken, standsAfter⟩ := represents.close_cons carries stands state rest
    obtain ⟨closed, closes, standsClosed⟩ := ih after standsAfter
    exact ⟨closed, taken.trans closes, standsClosed⟩

theorem exists_closure {set : Set} {states : StateSet} (stands : Stands keeps set states) :
    ∃ closed, kind.closure carried set = .some closed ∧ Stands keeps closed (nfa.closure states) := by
  have start := represents.stands_union (represents.stands_withCapacity carried.numStates.toNat) stands
  rw [StateSet.empty_union] at start
  rw [closure, represents.toList_eq stands]
  exact represents.exists_close carries states.toList states _ start

theorem stands_move {set : Set} {states : StateSet} (stands : Stands keeps set states) (char : Char) :
    Stands keeps (kind.move carried set char) (nfa.move states char) := by
  rw [move, Nfa.move, represents.toList_eq stands, Std.ExtTreeSet.foldl_eq_foldl_toList]
  have start := represents.stands_withCapacity carried.numStates.toNat
  generalize kind.withCapacity carried.numStates.toNat = reached, (∅ : StateSet) = reached' at start
  induction states.toList generalizing reached reached' with
  | nil => exact start
  | cons state rest ih =>
    rw [List.foldl_cons, List.foldl_cons]
    rcases carries.row?_cases state (.literal char) with ⟨noRow, none⟩ | ⟨targets, row, standsTargets⟩
    · rw [noRow, none, StateSet.union_empty]
      exact ih _ _ start
    · rw [row]
      exact ih _ _ (represents.stands_union start standsTargets)

theorem exists_advance {set : Set} {states : StateSet} (stands : Stands keeps set states) (char : Char) :
    ∃ next, kind.closure carried (kind.move carried set char) = .some next ∧ Stands keeps next (nfa.advance states char) :=
  represents.exists_closure carries (represents.stands_move carries stands char)

/-! ### The exploration -/

omit carries in
theorem findIdx?_eq {sets : List Set} {states : List StateSet} (stands : sets.Forall₂ (Stands keeps) states) {set : Set}
    {sought : StateSet} (standsSought : Stands keeps set sought) :
    sets.findIdx? (kind.equal · set) = states.idxOf? sought := by
  rw [List.idxOf?]
  induction stands with
  | nil => rfl
  | cons first _ ih => rw [List.findIdx?_cons, List.findIdx?_cons, represents.equal_eq first standsSought, ih]

theorem exists_follow {source : StateId} {set : Set} {active : StateSet} (stands : Stands keeps set active)
    {e : SetExploration Set} {e' : Exploration} (same : e.Carries keeps e') (char : Char) :
    ∃ after, kind.follow carried source set e char = .some after ∧
      after.Carries keeps (Exploration.follow nfa source active e' char) := by
  obtain ⟨next, advanced, standsNext⟩ := represents.exists_advance carries stands char
  have place := represents.findIdx?_eq same.dfa.sets standsNext
  rw [Array.idxOf?_toList, ← List.findIdx?_toArray, Array.toArray_toList] at place
  have empty := represents.isEmpty_eq standsNext
  have size : e.dfa.sets.size = e'.dfa.sets.size := by
    rw [← Array.length_toList, ← Array.length_toList, same.dfa.sets.length_eq]
  rw [follow, advanced, Part.bind_eq_bind, Part.bind_some, empty, place, Exploration.follow]
  by_cases gone : (nfa.advance active char).isEmpty = true
  · simp only [gone, if_pos]
    exact ⟨e, rfl, same⟩
  · simp only [gone, if_neg, Bool.false_eq_true, not_false_eq_true, Dfa.stateOf?]
    cases e'.dfa.sets.idxOf? (nfa.advance active char) with
    | some index => exact ⟨_, rfl, same.dfa.connect source char _, same.waiting⟩
    | none =>
      rw [size]
      exact ⟨_, rfl, (same.dfa.push standsNext).connect source char _,
        List.rel_append same.waiting (.cons ⟨rfl, standsNext⟩ .nil)⟩

theorem exists_foldlM_follow {source : StateId} {set : Set} {active : StateSet} (stands : Stands keeps set active)
    {e : SetExploration Set} {e' : Exploration} (same : e.Carries keeps e') (chars : List Char) :
    ∃ after, chars.foldlM (kind.follow carried source set) e = .some after ∧
      after.Carries keeps (chars.foldl (Exploration.follow nfa source active) e') := by
  induction chars generalizing e e' with
  | nil => exact ⟨e, rfl, same⟩
  | cons char rest ih =>
    obtain ⟨between, followed, sameBetween⟩ := represents.exists_follow carries stands same char
    rw [List.foldlM_cons, followed, Part.bind_eq_bind, Part.bind_some]
    exact ih sameBetween

theorem exists_run (e' : Exploration) : ∀ e : SetExploration Set, e.Carries keeps e' →
    ∃ dfa, (kind.exploreRound carried).fix e = .some dfa ∧ dfa.Carries keeps (Exploration.run nfa e') := by
  fun_induction Exploration.run nfa e' with
  | case1 dfa' =>
    rintro ⟨dfa, waiting⟩ ⟨same, none⟩
    cases none
    exact ⟨dfa, Part.eq_some_iff.mpr (PFun.fix_stop (Part.mem_some _)), same⟩
  | case2 dfa' source active rest' ih =>
    rintro ⟨dfa, waiting⟩ ⟨same, waits⟩
    obtain ⟨⟨source, set⟩, rest, ⟨rfl, stands⟩, later, rfl⟩ := List.forall₂_cons_right_iff.mp waits
    have taken : SetExploration.Carries keeps ⟨dfa, rest⟩ ⟨dfa', rest'⟩ := ⟨same, later⟩
    obtain ⟨after, followed, sameAfter⟩ := represents.exists_foldlM_follow carries stands taken dfa'.alphabet.toList
    obtain ⟨last, runs, sameLast⟩ := ih after sameAfter
    refine ⟨last, (PFun.fix_fwd_eq ?_).trans runs, sameLast⟩
    rw [exploreRound, same.alphabet_eq, followed, Part.map_some]
    exact Part.mem_some _

omit carries in
/-- The same numbers are those of sets with the accepting member. -/
theorem filter_zipIdx_eq {sets : List Set} {states : List StateSet} (stands : sets.Forall₂ (Stands keeps) states)
    (accept : StateId) (start : Nat) :
    ((sets.zipIdx start).filter (kind.contains ·.1 accept)).map (UInt32.ofNat ·.2) =
      ((states.zipIdx start).filter (·.1.contains accept)).map (UInt32.ofNat ·.2) := by
  induction stands generalizing start with
  | nil => rfl
  | cons first _ ih =>
    rw [List.zipIdx_cons, List.zipIdx_cons, List.filter_cons, List.filter_cons, represents.contains_eq first]
    split
    · rw [List.map_cons, List.map_cons, ih]
    · exact ih (start + 1)

theorem exists_toDfa (alphabet : Alphabet) :
    ∃ dfa, kind.toDfa carried alphabet = .some dfa ∧ dfa.Carries keeps (nfa.toDfa alphabet) := by
  obtain ⟨start, made, standsStart⟩ := represents.exists_singleton carried.start carried.numStates.toNat
  rw [carries.start_eq] at standsStart
  obtain ⟨initial, closed, standsInitial⟩ := represents.exists_closure carries standsStart
  have same : SetExploration.Carries keeps
      { dfa := { alphabet, sets := #[initial], start := some 0, finals := kind.withCapacity 16, transitions := ∅ }
        waiting := [(0, initial)] } (Exploration.initial nfa alphabet) :=
    ⟨⟨rfl, rfl, rfl, .cons standsInitial .nil, represents.stands_withCapacity 16⟩, .cons ⟨rfl, standsInitial⟩ .nil⟩
  obtain ⟨dfa, runs, carriesDfa⟩ := represents.exists_run carries _ _ same
  obtain ⟨finals, extended, standsFinals⟩ := represents.exists_extend carriesDfa.finals
    ((dfa.sets.toList.zipIdx.filter (kind.contains ·.1 carried.accept)).map fun (_, index) => UInt32.ofNat index)
  refine ⟨{ dfa with finals }, ?_, carriesDfa.alphabet_eq, carriesDfa.start_eq, carriesDfa.transitions_eq,
    carriesDfa.sets, ?_⟩
  · simp [toDfa, made, closed, runs, extended]
  · have none : (Exploration.run nfa (.initial nfa alphabet)).finals = ∅ := (Exploration.run_keeps nfa _).2
    have accepting := represents.filter_zipIdx_eq carriesDfa.sets carried.accept 0
    rw [none, StateSet.empty_union, accepting, carries.accept_eq] at standsFinals
    exact standsFinals

end SetKind.Represents

/-- With vectors of bits, however long they are made, closures, moves and the deterministic
    automaton come out with the same members, numbers and transitions, and the program does
    not stop on the way. -/
theorem toDfa_represented (Bits : Type) [GrowableBits Bits] [LawfulBits Bits] (nfa : Nfa) :
    let kind := BitSet.kind Bits
    let carried := kind.ofNfa nfa
    (∀ set states, Stands BitSet.Keeps set states →
      (∃ closed, kind.closure carried set = .some closed ∧ closed.toList = (nfa.closure states).toList) ∧
        ∀ char, (kind.move carried set char).toList = (nfa.move states char).toList) ∧
    ∀ alphabet, ∃ dfa, kind.toDfa carried alphabet = .some dfa ∧ dfa.start = (nfa.toDfa alphabet).start ∧
      dfa.transitions = (nfa.toDfa alphabet).transitions ∧ dfa.finals.toList = (nfa.toDfa alphabet).finals.toList ∧
        dfa.sets.toList.map BitSet.toList = (nfa.toDfa alphabet).sets.toList.map (·.toList) := by
  intro kind carried
  have represents : kind.Represents BitSet.Keeps := BitSet.represents
  have carries : carried.Carries BitSet.Keeps nfa := represents.carries_ofNfa nfa
  refine ⟨fun set states stands => ⟨?_, fun char => ?_⟩, fun alphabet => ?_⟩
  · obtain ⟨closed, closes, standsClosed⟩ := represents.exists_closure carries stands
    exact ⟨closed, closes, represents.toList_eq standsClosed⟩
  · exact represents.toList_eq (represents.stands_move carries stands char)
  · obtain ⟨dfa, made, carriesDfa⟩ := represents.exists_toDfa carries alphabet
    refine ⟨dfa, made, carriesDfa.start_eq, carriesDfa.transitions_eq, represents.toList_eq carriesDfa.finals, ?_⟩
    refine List.forall₂_eq_eq_eq ▸ List.forall₂_map_left_iff.mpr (List.forall₂_map_right_iff.mpr ?_)
    exact carriesDfa.sets.imp fun _ _ => represents.toList_eq

end RegexCompiler
