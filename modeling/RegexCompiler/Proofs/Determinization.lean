import Mathlib
import RegexCompiler.Exploration
import RegexCompiler.Assembly

/-!
The exploration keeps one invariant (`Explores`), and so a run of the deterministic automaton follows the
simulation step by step.
-/

namespace RegexCompiler

namespace Exploration

/-- What following a character can do: nothing if no state is left active, else
    it adds a transition to a known state or to a new one that then waits. -/
theorem follow_cases (nfa : Nfa) (source : StateId) (active : StateSet) (e : Exploration) (char : Char) :
    (nfa.advance active char = ∅ ∧ follow nfa source active e char = e) ∨
    (nfa.advance active char ≠ ∅ ∧
      ((∃ target, e.dfa.stateOf? (nfa.advance active char) = some target ∧
        follow nfa source active e char = { e with dfa := e.dfa.addTransition source char target }) ∨
      (e.dfa.stateOf? (nfa.advance active char) = none ∧
        follow nfa source active e char =
          { dfa := (e.dfa.addState (nfa.advance active char)).2.addTransition source char e.dfa.numStates
            waiting := e.waiting ++ [(e.dfa.numStates, nfa.advance active char)] }))) := by
  by_cases gone : nfa.advance active char = ∅
  · exact .inl ⟨gone, by simp [follow, gone]⟩
  · refine .inr ⟨gone, ?_⟩
    have some_left : (nfa.advance active char).isEmpty = false := by
      rw [← Bool.not_eq_true, Std.ExtTreeSet.isEmpty_iff]
      exact gone
    cases found : e.dfa.stateOf? (nfa.advance active char) with
    | some target => exact .inl ⟨target, rfl, by simp [follow, some_left, found]⟩
    | none => exact .inr ⟨rfl, by simp [follow, some_left, found, Dfa.addState]⟩

/-! ### What was found -/

theorem sets_prefix_follow (nfa : Nfa) (source : StateId) (active : StateSet) (e : Exploration) (char : Char) :
    e.dfa.sets.toList <+: (follow nfa source active e char).dfa.sets.toList := by
  obtain ⟨_, same⟩ | ⟨_, ⟨target, _, known⟩ | ⟨_, new⟩⟩ := follow_cases nfa source active e char
  · rw [same]
  · rw [known, Dfa.addTransition]
  · rw [new]
    simp [Dfa.addState, Dfa.addTransition]

theorem sets_prefix_foldl_follow (nfa : Nfa) (source : StateId) (active : StateSet) (chars : List Char)
    (e : Exploration) : e.dfa.sets.toList <+: (chars.foldl (follow nfa source active) e).dfa.sets.toList := by
  induction chars generalizing e with
  | nil => exact List.prefix_rfl
  | cons char rest ih => exact (sets_prefix_follow nfa source active e char).trans (ih _)

theorem sets_prefix_run (nfa : Nfa) (e : Exploration) : e.dfa.sets.toList <+: (run nfa e).sets.toList := by
  fun_induction run nfa e with
  | case1 dfa => exact List.prefix_rfl
  | case2 dfa source active rest ih => exact (sets_prefix_foldl_follow nfa source active _ ⟨dfa, rest⟩).trans ih

theorem size_le_foldl_follow (nfa : Nfa) (source : StateId) (active : StateSet) (chars : List Char)
    (e : Exploration) : e.dfa.sets.size ≤ (chars.foldl (follow nfa source active) e).dfa.sets.size :=
  (sets_prefix_foldl_follow nfa source active chars e).length_le

theorem size_le_run (nfa : Nfa) (e : Exploration) : e.dfa.sets.size ≤ (run nfa e).sets.size :=
  (sets_prefix_run nfa e).length_le

theorem follow_keeps (nfa : Nfa) (source : StateId) (active : StateSet) (e : Exploration) (char : Char) :
    (follow nfa source active e char).dfa.start = e.dfa.start ∧
      (follow nfa source active e char).dfa.finals = e.dfa.finals := by
  obtain ⟨_, same⟩ | ⟨_, ⟨target, _, known⟩ | ⟨_, new⟩⟩ := follow_cases nfa source active e char
  · rw [same]
    exact ⟨rfl, rfl⟩
  · rw [known]
    exact ⟨rfl, rfl⟩
  · rw [new]
    exact ⟨rfl, rfl⟩

theorem foldl_follow_keeps (nfa : Nfa) (source : StateId) (active : StateSet) (chars : List Char) (e : Exploration) :
    (chars.foldl (follow nfa source active) e).dfa.start = e.dfa.start ∧
      (chars.foldl (follow nfa source active) e).dfa.finals = e.dfa.finals := by
  induction chars generalizing e with
  | nil => exact ⟨rfl, rfl⟩
  | cons char rest ih =>
    obtain ⟨start, finals⟩ := follow_keeps nfa source active e char
    exact ⟨(ih _).1.trans start, (ih _).2.trans finals⟩

theorem run_keeps (nfa : Nfa) (e : Exploration) :
    (run nfa e).start = e.dfa.start ∧ (run nfa e).finals = e.dfa.finals := by
  fun_induction run nfa e with
  | case1 dfa => exact ⟨rfl, rfl⟩
  | case2 dfa source active rest ih =>
    obtain ⟨start, finals⟩ := foldl_follow_keeps nfa source active dfa.alphabet.toList ⟨dfa, rest⟩
    exact ⟨ih.1.trans start, ih.2.trans finals⟩

/-- A character that leaves no state active adds nothing. -/
theorem foldl_follow_filter {nfa : Nfa} {active : StateSet} {reads : Char → Bool} {chars : List Char}
    (gone : ∀ char ∈ chars, reads char = false → nfa.advance active char = ∅) (source : StateId) (e : Exploration) :
    chars.foldl (follow nfa source active) e = (chars.filter reads).foldl (follow nfa source active) e := by
  induction chars generalizing e with
  | nil => rfl
  | cons char rest ih =>
    have later := ih fun c member => gone c (.tail _ member)
    by_cases isRead : reads char = true
    · rw [List.filter_cons_of_pos isRead, List.foldl_cons, List.foldl_cons, later]
    · have skipped : follow nfa source active e char = e := by
        simp [follow, gone char (.head _) (Bool.eq_false_iff.mpr isRead)]
      rw [List.filter_cons_of_neg isRead, List.foldl_cons, skipped, later]

/-! ### The invariant -/

/-- What holds at every point of the exploration of an automaton, while the
    `remaining` characters of the state `source` are still to be followed. -/
structure Explores (nfa : Nfa) (alphabet : Alphabet) (source : StateId) (remaining : List Char)
    (e : Exploration) : Prop where
  alphabet_eq : e.dfa.alphabet = alphabet
  waits : ∀ state active, (state, active) ∈ e.waiting → e.dfa.states? state = some active
  sound : ∀ state char target, e.dfa.transition? state char = some target →
    char ∈ alphabet ∧ ∃ active, e.dfa.states? state = some active ∧ nfa.advance active char ≠ ∅ ∧
      e.dfa.states? target = some (nfa.advance active char)
  complete : ∀ state active char, e.dfa.states? state = some active → char ∈ alphabet →
    nfa.advance active char ≠ ∅ →
      (∃ target, e.dfa.transition? state char = some target) ∨ (state, active) ∈ e.waiting ∨
        state = source ∧ char ∈ remaining

namespace Explores

variable {nfa : Nfa} {alphabet : Alphabet} {source : StateId} {char : Char} {remaining : List Char} {e : Exploration}

theorem addState (inv : Explores nfa alphabet source remaining e) (added : StateSet)
    (room : e.dfa.sets.size < UInt32.size) :
    Explores nfa alphabet source remaining
      { dfa := (e.dfa.addState added).2, waiting := e.waiting ++ [(e.dfa.numStates, added)] } where
  alphabet_eq := inv.alphabet_eq
  waits := by
    intro state active member
    rcases List.mem_append.mp member with old | new
    · exact Dfa.states?_addState_of_some added (inv.waits state active old)
    · cases List.mem_singleton.mp new
      exact Dfa.states?_addState_numStates added room
  sound := by
    intro state char target edge
    obtain ⟨listed, active, known, nonempty, reached⟩ := inv.sound state char target edge
    exact ⟨listed, active, Dfa.states?_addState_of_some added known, nonempty,
      Dfa.states?_addState_of_some added reached⟩
  complete := by
    intro state active char known listed nonempty
    rcases Dfa.states?_addState_cases known with old | ⟨rfl, rfl⟩
    · rcases inv.complete state active char old listed nonempty with edge | waits | rest
      · exact .inl edge
      · exact .inr (.inl (List.mem_append_left _ waits))
      · exact .inr (.inr rest)
    · exact .inr (.inl (List.mem_append_right _ (List.mem_singleton.mpr rfl)))

theorem addTransition (inv : Explores nfa alphabet source (char :: remaining) e) {active : StateSet}
    (known : e.dfa.states? source = some active) (listed : char ∈ alphabet)
    (nonempty : nfa.advance active char ≠ ∅) {target : StateId}
    (reached : e.dfa.states? target = some (nfa.advance active char)) :
    Explores nfa alphabet source remaining { e with dfa := e.dfa.addTransition source char target } where
  alphabet_eq := inv.alphabet_eq
  waits := inv.waits
  sound := by
    intro state label next edge
    rw [Dfa.transition?_addTransition] at edge
    split at edge
    · rename_i same
      obtain ⟨rfl, rfl⟩ := same
      cases edge
      exact ⟨listed, active, known, nonempty, reached⟩
    · exact inv.sound state label next edge
  complete := by
    intro state others label otherKnown otherListed otherNonempty
    rw [Dfa.transition?_addTransition]
    split
    · exact .inl ⟨target, rfl⟩
    · rename_i other
      rcases inv.complete state others label otherKnown otherListed otherNonempty with edge | waits | ⟨rfl, later⟩
      · exact .inl edge
      · exact .inr (.inl waits)
      · rcases List.mem_cons.mp later with rfl | rest
        · exact absurd ⟨rfl, rfl⟩ other
        · exact .inr (.inr ⟨rfl, rest⟩)

theorem skip (inv : Explores nfa alphabet source (char :: remaining) e) {active : StateSet}
    (known : e.dfa.states? source = some active) (gone : nfa.advance active char = ∅) :
    Explores nfa alphabet source remaining e where
  alphabet_eq := inv.alphabet_eq
  waits := inv.waits
  sound := inv.sound
  complete := by
    intro state others label otherKnown otherListed otherNonempty
    rcases inv.complete state others label otherKnown otherListed otherNonempty with edge | waits | ⟨rfl, later⟩
    · exact .inl edge
    · exact .inr (.inl waits)
    · rcases List.mem_cons.mp later with rfl | rest
      · rw [known] at otherKnown
        cases otherKnown
        exact absurd gone otherNonempty
      · exact .inr (.inr ⟨rfl, rest⟩)

/-- Following a character keeps the invariant and what the source stands for. -/
theorem after_follow (inv : Explores nfa alphabet source (char :: remaining) e) {active : StateSet}
    (known : e.dfa.states? source = some active) (listed : char ∈ alphabet)
    (room : (follow nfa source active e char).dfa.sets.size ≤ UInt32.size) :
    Explores nfa alphabet source remaining (follow nfa source active e char) ∧
      (follow nfa source active e char).dfa.states? source = some active := by
  obtain ⟨gone, same⟩ | ⟨nonempty, ⟨target, found, eq⟩ | ⟨_, eq⟩⟩ := follow_cases nfa source active e char
  · rw [same]
    exact ⟨inv.skip known gone, known⟩
  · rw [eq] at room ⊢
    exact ⟨inv.addTransition known listed nonempty (Dfa.states?_of_stateOf? room found), known⟩
  · rw [eq] at room ⊢
    have more : e.dfa.sets.size < UInt32.size := by
      simp only [Dfa.addState, Dfa.addTransition, Array.size_push] at room
      omega
    have known' := Dfa.states?_addState_of_some (nfa.advance active char) known
    have reached := Dfa.states?_addState_numStates (nfa.advance active char) more
    exact ⟨(inv.addState _ more).addTransition known' listed nonempty reached, known'⟩

theorem take {dfa : Dfa} {next : StateId} {active : StateSet} {rest : List (StateId × StateSet)}
    (inv : Explores nfa alphabet source [] ⟨dfa, (next, active) :: rest⟩) :
    Explores nfa alphabet next alphabet.toList ⟨dfa, rest⟩ where
  alphabet_eq := inv.alphabet_eq
  waits := fun state others member => inv.waits state others (.tail _ member)
  sound := inv.sound
  complete := by
    intro state others char known listed nonempty
    rcases inv.complete state others char known listed nonempty with edge | waits | ⟨_, none⟩
    · exact .inl edge
    · rcases List.mem_cons.mp waits with first | later
      · cases first
        exact .inr (.inr ⟨rfl, Std.ExtTreeSet.mem_toList.mpr listed⟩)
      · exact .inr (.inl later)
    · cases none

end Explores

/-- Before the exploration, only the start is known and waits. -/
theorem explores_initial (nfa : Nfa) (alphabet : Alphabet) :
    Explores nfa alphabet 0 [] (initial nfa alphabet) where
  alphabet_eq := rfl
  waits := by
    intro state active member
    cases List.mem_singleton.mp member
    rfl
  sound := by
    intro state char target edge
    have none : (initial nfa alphabet).dfa.transition? state char = none := Std.ExtTreeMap.getElem?_empty
    rw [none] at edge
    cases edge
  complete := by
    intro state active char known _ _
    rcases Dfa.states?_addState_cases known with old | ⟨rfl, rfl⟩
    · cases old
    · exact .inr (.inl (.head _))

/-! ### The whole exploration -/

section

variable {nfa : Nfa} {alphabet : Alphabet} {Inv : StateId → List Char → Exploration → Prop}
  (explores : ∀ {source : StateId} {remaining : List Char} {e : Exploration},
    Inv source remaining e → Explores nfa alphabet source remaining e)
  (follows : ∀ {source : StateId} {active : StateSet} {char : Char} {remaining : List Char} {e : Exploration},
    Inv source (char :: remaining) e → e.dfa.states? source = some active → char ∈ alphabet →
      (follow nfa source active e char).dfa.sets.size ≤ UInt32.size →
        Inv source remaining (follow nfa source active e char))
  (takes : ∀ {source next : StateId} {active : StateSet} {rest : List (StateId × StateSet)} {dfa : Dfa},
    Inv source [] ⟨dfa, (next, active) :: rest⟩ → Inv next alphabet.toList ⟨dfa, rest⟩)
include explores follows

/-- What following one character keeps, following the remaining ones keeps. -/
theorem foldl_follow_induction {source : StateId} {active : StateSet} {remaining : List Char} {e : Exploration}
    (inv : Inv source remaining e) (known : e.dfa.states? source = some active)
    (listed : ∀ char ∈ remaining, char ∈ alphabet)
    (room : (remaining.foldl (follow nfa source active) e).dfa.sets.size ≤ UInt32.size) :
    Inv source [] (remaining.foldl (follow nfa source active) e) := by
  induction remaining generalizing e with
  | nil => exact inv
  | cons char rest ih =>
    rw [List.foldl_cons] at room ⊢
    have less := Nat.le_trans (size_le_foldl_follow nfa source active rest _) room
    have next := follows inv known (listed char (.head _)) less
    have known' := ((explores inv).after_follow known (listed char (.head _)) less).2
    exact ih next known' (fun c member => listed c (.tail _ member)) room

include takes

/-- What following a character and taking up the next state keep holds when
    nothing waits any more. -/
theorem run_induction {source : StateId} {e : Exploration} (inv : Inv source [] e)
    (room : (run nfa e).sets.size ≤ UInt32.size) : ∃ last, Inv last [] ⟨run nfa e, []⟩ := by
  fun_induction run nfa e generalizing source with
  | case1 dfa => exact ⟨source, inv⟩
  | case2 dfa next active rest ih =>
    have known : dfa.states? next = some active := (explores inv).waits next active (.head _)
    have same : dfa.alphabet = alphabet := (explores inv).alphabet_eq
    have less := Nat.le_trans (size_le_run nfa _) room
    have expanded : Inv next [] (expand nfa next active ⟨dfa, rest⟩) := by
      rw [expand, same] at less ⊢
      exact foldl_follow_induction explores follows (takes inv) known
        (fun char member => Std.ExtTreeSet.mem_toList.mp member) less
    exact ih expanded room

end

end Exploration

theorem Dfa.start_toDfa (nfa : Nfa) (alphabet : Alphabet) : (nfa.toDfa alphabet).start = some 0 :=
  (Exploration.run_keeps nfa (Exploration.initial nfa alphabet)).1

theorem Dfa.states?_toDfa_zero (nfa : Nfa) (alphabet : Alphabet) :
    (nfa.toDfa alphabet).states? 0 = some nfa.initial := by
  obtain ⟨later, sets⟩ := Exploration.sets_prefix_run nfa (.initial nfa alphabet)
  have first : (Exploration.initial nfa alphabet).dfa.sets.toList = [nfa.initial] := rfl
  have found : (nfa.toDfa alphabet).sets = (Exploration.run nfa (.initial nfa alphabet)).sets := rfl
  rw [states?, ← Array.getElem?_toList, found, ← sets, first]
  rfl

theorem Dfa.run_toDfa_eq (nfa : Nfa) (alphabet : Alphabet) (word : List Char) :
    (nfa.toDfa alphabet).run word = (nfa.toDfa alphabet).runFrom 0 word := by
  rw [run, start_toDfa, Option.bind_some]

theorem Dfa.isFinal_markFinals_iff {dfa : Dfa} {accept state : StateId} :
    (dfa.markFinals accept).isFinal state = true ↔
      ∃ index states, dfa.sets[index]? = some states ∧ accept ∈ states ∧ UInt32.ofNat index = state := by
  simp only [isFinal, Std.ExtTreeSet.contains_iff_mem, markFinals, StateSet.mem_ofList, List.mem_map, List.mem_filter,
    Prod.exists, List.mem_zipIdx_iff_getElem?, Array.getElem?_toList]
  constructor
  · rintro ⟨states, index, ⟨listed, contains⟩, number⟩
    exact ⟨index, states, listed, contains, number⟩
  · rintro ⟨index, states, listed, contains, number⟩
    exact ⟨states, index, ⟨listed, contains⟩, number⟩

/-- Once the sets are numbered, the accepting states are those whose set has the
    accepting member. -/
theorem Dfa.isFinal_markFinals {dfa : Dfa} {accept state : StateId} {states : StateSet}
    (room : dfa.sets.size ≤ UInt32.size) (known : dfa.states? state = some states) :
    (dfa.markFinals accept).isFinal state = true ↔ accept ∈ states := by
  rw [isFinal_markFinals_iff]
  constructor
  · rintro ⟨index, others, listed, contains, rfl⟩
    have inside : index < dfa.sets.size := (Array.getElem?_eq_some_iff.mp listed).1
    have number : (UInt32.ofNat index).toNat = index := UInt32.toNat_ofNat_of_lt' (by omega)
    rw [states?, number, listed] at known
    cases known
    exact contains
  · exact fun member => ⟨state.toNat, states, known, member, UInt32.ofNat_toNat⟩

/-! ### Runs -/

section

variable {nfa : Nfa} {alphabet : Alphabet} (room : (nfa.toDfa alphabet).sets.size ≤ UInt32.size)
include room

theorem Nfa.explores_toDfa : ∃ last, Exploration.Explores nfa alphabet last []
    ⟨Exploration.run nfa (Exploration.initial nfa alphabet), []⟩ :=
  Exploration.run_induction id (fun inv known listed less => (inv.after_follow known listed less).1)
    Exploration.Explores.take (Exploration.explores_initial nfa alphabet) room

/-- A run of the deterministic automaton keeps to the alphabet and to what the
    simulation does. -/
theorem Dfa.simulates_of_runFrom {state target : StateId} {active : StateSet} {word : List Char}
    (known : (nfa.toDfa alphabet).states? state = some active) (nonempty : active ≠ ∅)
    (runs : (nfa.toDfa alphabet).runFrom state word = some target) :
    (nfa.toDfa alphabet).states? target = some (word.foldl nfa.advance active) ∧
      word.foldl nfa.advance active ≠ ∅ ∧ ∀ char ∈ word, char ∈ alphabet := by
  obtain ⟨last, inv⟩ := Nfa.explores_toDfa room
  induction word generalizing state active with
  | nil =>
    cases runs
    exact ⟨known, nonempty, by simp⟩
  | cons char rest ih =>
    obtain ⟨next, edge, later⟩ := Option.bind_eq_some_iff.mp runs
    obtain ⟨listed, others, sameKnown, left, reached⟩ := inv.sound state char next edge
    have same : active = others := Option.some.inj (known.symm.trans sameKnown)
    subst same
    obtain ⟨stands, ends, inside⟩ := ih reached left later
    refine ⟨stands, ends, fun c member => ?_⟩
    rcases List.mem_cons.mp member with rfl | member
    · exact listed
    · exact inside c member

/-- As long as the alphabet lasts and some state is active, the deterministic
    automaton goes on. -/
theorem Dfa.exists_runFrom {state : StateId} {active : StateSet} {word : List Char}
    (known : (nfa.toDfa alphabet).states? state = some active)
    (inside : ∀ char ∈ word, char ∈ alphabet) (ends : word.foldl nfa.advance active ≠ ∅) :
    ∃ target, (nfa.toDfa alphabet).runFrom state word = some target := by
  obtain ⟨last, inv⟩ := Nfa.explores_toDfa room
  induction word generalizing state active with
  | nil => exact ⟨state, rfl⟩
  | cons char rest ih =>
    have left : nfa.advance active char ≠ ∅ := by
      intro gone
      rw [List.foldl_cons, gone, Nfa.foldl_advance_empty] at ends
      exact ends rfl
    obtain ⟨next, edge⟩ | waits | ⟨_, none⟩ :=
      inv.complete state active char known (inside char (.head _)) left
    · obtain ⟨_, others, sameKnown, _, reached⟩ := inv.sound state char next edge
      have same : active = others := Option.some.inj (known.symm.trans sameKnown)
      subst same
      obtain ⟨target, later⟩ := ih reached (fun c member => inside c (.tail _ member)) ends
      exact ⟨target, Option.bind_eq_some_iff.mpr ⟨next, edge, later⟩⟩
    · cases waits
    · cases none

end

namespace Nfa

theorem initial_ne_empty (nfa : Nfa) : nfa.initial ≠ ∅ := by
  intro none
  have member : nfa.start ∈ nfa.initial :=
    mem_closure.mpr ⟨nfa.start, StateSet.mem_singleton_iff.mpr rfl, .refl⟩
  rw [none] at member
  exact StateSet.not_mem_empty _ member

variable {nfa : Nfa} {alphabet : Alphabet} (room : (nfa.toDfa alphabet).sets.size ≤ UInt32.size)
include room

/-- Where a run ends, the state stands for what the simulation has reached and
    is accepting accordingly. -/
theorem simulates_of_run {word : List Char} {state : StateId}
    (runs : (nfa.toDfa alphabet).run word = some state) :
    (nfa.toDfa alphabet).states? state = some (nfa.simulate word) ∧
      ((nfa.toDfa alphabet).isFinal state = true ↔ nfa.accept ∈ nfa.simulate word) ∧
      nfa.simulate word ≠ ∅ ∧ ∀ char ∈ word, char ∈ alphabet := by
  rw [Dfa.run_toDfa_eq] at runs
  obtain ⟨stands, ends, inside⟩ :=
    Dfa.simulates_of_runFrom room (Dfa.states?_toDfa_zero nfa alphabet) nfa.initial_ne_empty runs
  exact ⟨stands, Dfa.isFinal_markFinals room stands, ends, inside⟩

theorem exists_run_iff (word : List Char) :
    (∃ state, (nfa.toDfa alphabet).run word = some state) ↔
      (∀ char ∈ word, char ∈ alphabet) ∧ nfa.simulate word ≠ ∅ := by
  constructor
  · rintro ⟨state, runs⟩
    obtain ⟨_, _, ends, inside⟩ := simulates_of_run room runs
    exact ⟨inside, ends⟩
  · rintro ⟨inside, ends⟩
    rw [Dfa.run_toDfa_eq]
    exact Dfa.exists_runFrom room (Dfa.states?_toDfa_zero nfa alphabet) inside ends

theorem accepts_toDfa_iff (word : List Char) :
    (nfa.toDfa alphabet).accepts word = true ↔
      (∀ char ∈ word, char ∈ alphabet) ∧ nfa.accepts word = true := by
  rw [accepts_iff, Dfa.accepts, Option.any_eq_true]
  constructor
  · rintro ⟨state, runs, final⟩
    obtain ⟨_, agrees, _, inside⟩ := simulates_of_run room runs
    exact ⟨inside, agrees.mp final⟩
  · rintro ⟨inside, member⟩
    have ends : nfa.simulate word ≠ ∅ := by
      intro none
      rw [none] at member
      exact StateSet.not_mem_empty _ member
    obtain ⟨state, runs⟩ := (exists_run_iff room word).mpr ⟨inside, ends⟩
    exact ⟨state, runs, (simulates_of_run room runs).2.1.mpr member⟩

end Nfa

/-- A run of the deterministic automaton ends exactly on the words over the
    alphabet on which the simulation keeps some state active; it ends in the state
    of the set that the simulation has reached, which is final exactly when the set
    has the accepting state. So the deterministic automaton accepts the words over
    the alphabet that the nondeterministic one accepts. -/
theorem toDfa_refines (nfa : Nfa) (alphabet : Alphabet)
    (few : (nfa.toDfa alphabet).sets.size < UInt32.size) (word : List Char) :
    ((∃ state, (nfa.toDfa alphabet).run word = some state) ↔
      (∀ char ∈ word, char ∈ alphabet) ∧ nfa.simulate word ≠ ∅) ∧
    (∀ state, (nfa.toDfa alphabet).run word = some state →
      (nfa.toDfa alphabet).states? state = some (nfa.simulate word) ∧
        ((nfa.toDfa alphabet).isFinal state = true ↔ nfa.accept ∈ nfa.simulate word)) ∧
    ((nfa.toDfa alphabet).accepts word = true ↔
      (∀ char ∈ word, char ∈ alphabet) ∧ nfa.accepts word = true) := by
  have room := Nat.le_of_lt few
  refine ⟨Nfa.exists_run_iff room word, ?_, Nfa.accepts_toDfa_iff room word⟩
  intro state runs
  obtain ⟨stands, agrees, _⟩ := Nfa.simulates_of_run room runs
  exact ⟨stands, agrees⟩

/-- An automaton whose states were never handed out and that can move in a circle
    without reading. -/
def Nfa.circle : Nfa :=
  let builder : Builder := {}
  let builder := (builder.connectEpsilon 3 7).connectEpsilon 7 3
  ((builder.connectLiteral 7 'a' 9).connectLiteral 7 'b' 9).finish 3 9

theorem toDfa_refines_circle :
    (Nfa.circle.toDfa (Alphabet.ofList ['a', 'c'])).sets.size < UInt32.size ∧
    (Nfa.circle.toDfa (Alphabet.ofList ['a', 'c'])).accepts ['a'] = true ∧
    ¬ (Nfa.circle.toDfa (Alphabet.ofList ['a', 'c'])).accepts ['b'] = true ∧ Nfa.circle.accepts ['b'] = true := by
  have few : (Nfa.circle.toDfa (Alphabet.ofList ['a', 'c'])).sets.size < UInt32.size := by cbv
  refine ⟨few, ?_, ?_, by cbv⟩
  · exact (toDfa_refines Nfa.circle (Alphabet.ofList ['a', 'c']) few ['a']).2.2.mpr ⟨by simp, by cbv⟩
  · intro accepted
    have inside := ((toDfa_refines Nfa.circle (Alphabet.ofList ['a', 'c']) few ['b']).2.2.mp accepted).1
    simp at inside

end RegexCompiler
