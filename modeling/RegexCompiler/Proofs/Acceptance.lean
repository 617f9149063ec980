import Mathlib
import RegexCompiler.Assembly
import RegexCompiler.Proofs.Simulation

namespace RegexCompiler

/-- The character that a transition reads. -/
def Symbol.char? : Symbol → Option Char
  | .literal c => some c
  | .epsilon => none

/-- The word that a sequence of labels spells; epsilon adds nothing to it. -/
def spell (labels : List Symbol) : List Char :=
  labels.filterMap Symbol.char?

/-- Transitions with the given labels lead one after another from a state to
    another. -/
inductive Walk (table : TransitionTable) : StateId → List Symbol → StateId → Prop where
  | refl (state : StateId) : Walk table state [] state
  | step {source middle target : StateId} {symbol : Symbol} {labels : List Symbol} :
    ⟨source, symbol, middle⟩ ∈ table → Walk table middle labels target → Walk table source (symbol :: labels) target

namespace Walk

variable {table : TransitionTable} {source target : StateId}

theorem path {labels : List Symbol} (walk : Walk table source labels target) :
    Path table source (spell labels) target := by
  induction walk with
  | refl state => exact .refl state
  | @step source middle target symbol labels edge _ ih =>
    cases symbol with
    | literal char => exact .literal edge ih
    | epsilon => exact .epsilon edge ih

theorem of_path {word : List Char} (path : Path table source word target) :
    ∃ labels, Walk table source labels target ∧ spell labels = word := by
  induction path with
  | refl state => exact ⟨[], .refl state, rfl⟩
  | epsilon edge _ ih =>
    obtain ⟨labels, walk, rfl⟩ := ih
    exact ⟨.epsilon :: labels, .step edge walk, rfl⟩
  | @literal source middle target char word edge _ ih =>
    obtain ⟨labels, walk, rfl⟩ := ih
    exact ⟨.literal char :: labels, .step edge walk, rfl⟩

end Walk

/-! ## Transitions that a word does not use -/

namespace TransitionTable

theorem targets_epsilon_insert_literal (table : TransitionTable) (source target : StateId) (char : Char) :
    ((table.insert ⟨source, .literal char, target⟩).targets · .epsilon) = (table.targets · .epsilon) := by
  funext state
  refine Std.ExtTreeSet.ext_mem fun next => ?_
  have inserted := @mem_insert table ⟨source, .literal char, target⟩ ⟨state, .epsilon, next⟩
  simpa [mem_def] using inserted

end TransitionTable

/-- A path on a word uses no transition that reads a character outside the word. -/
theorem Path.insert_literal_iff {table : TransitionTable} {source target first last : StateId} {char : Char}
    {word : List Char} (unread : char ∉ word) :
    Path (table.insert ⟨source, .literal char, target⟩) first word last ↔ Path table first word last := by
  constructor
  · intro path
    induction path with
    | refl state => exact .refl state
    | epsilon edge _ ih =>
      rcases TransitionTable.mem_insert.mp edge with isNew | old
      · cases isNew
      · exact .epsilon old (ih unread)
    | literal edge _ ih =>
      rcases TransitionTable.mem_insert.mp edge with isNew | old
      · cases isNew
        exact absurd (.head _) unread
      · exact .literal old (ih fun later => unread (.tail _ later))
  · intro path
    induction path with
    | refl state => exact .refl state
    | epsilon edge _ ih => exact .epsilon (TransitionTable.mem_insert.mpr (.inr edge)) (ih unread)
    | literal edge _ ih =>
      exact .literal (TransitionTable.mem_insert.mpr (.inr edge)) (ih fun later => unread (.tail _ later))

namespace Nfa

/-- The automaton with one more transition. -/
def connect (nfa : Nfa) (source : StateId) (symbol : Symbol) (target : StateId) : Nfa :=
  { nfa with transitions := nfa.transitions.insert ⟨source, symbol, target⟩ }

theorem closure_connect_literal (nfa : Nfa) (source target : StateId) (char : Char) :
    (nfa.connect source (.literal char) target).closure = nfa.closure := by
  funext states
  rw [closure, connect, TransitionTable.targets_epsilon_insert_literal]
  rfl

theorem accepts_iff_path {nfa : Nfa} {word : List Char} :
    nfa.accepts word = true ↔ Path nfa.transitions nfa.start word nfa.accept := by
  rw [accepts_iff, mem_simulate]

theorem accepts_connect_literal (nfa : Nfa) (source target : StateId) {char : Char} {word : List Char}
    (unread : char ∉ word) : (nfa.connect source (.literal char) target).accepts word = nfa.accepts word := by
  rw [Bool.eq_iff_iff, accepts_iff_path, accepts_iff_path]
  exact Path.insert_literal_iff unread

/-- A word is accepted exactly when a walk from the start to the accepting state
    spells it. Giving up once no state is left changes no answer, and a transition
    on a character, even on the sign of epsilon, changes neither a closure nor the
    answer on a word without that character. -/
theorem accepts_iff_walk (nfa : Nfa) (word : List Char) :
    (nfa.accepts word = true ↔
      ∃ labels, Walk nfa.transitions nfa.start labels nfa.accept ∧ spell labels = word) ∧
    nfa.accepts word = (nfa.simulate word).contains nfa.accept ∧
    ∀ source char target, (nfa.connect source (.literal char) target).closure = nfa.closure ∧
      (char ∉ word → (nfa.connect source (.literal char) target).accepts word = nfa.accepts word) := by
  refine ⟨⟨?_, ?_⟩, acceptsFrom_eq nfa nfa.initial word, ?_⟩
  · intro accepted
    exact Walk.of_path (accepts_iff_path.mp accepted)
  · rintro ⟨labels, walk, rfl⟩
    exact accepts_iff_path.mpr walk.path
  · intro source char target
    exact ⟨nfa.closure_connect_literal source target char, nfa.accepts_connect_literal source target⟩

/-- An automaton whose only way to the accepting state reads the sign of epsilon,
    with a circle of moves that read nothing and states that were never handed
    out. -/
def sign : Nfa :=
  let builder : Builder := {}
  let builder := (builder.connectEpsilon 4 2).connectEpsilon 2 4
  (builder.connectLiteral 2 Symbol.epsilonSign 7).finish 4 7

theorem accepts_iff_walk_sign :
    sign.accepts [Symbol.epsilonSign] = true ∧ sign.accepts [] = false ∧
      (sign.connect 4 (.literal Symbol.epsilonSign) 7).accepts [] = false := by
  have circles : ⟨4, .epsilon, 2⟩ ∈ sign.transitions := by
    simp [sign, Builder.finish, Builder.connectEpsilon, Builder.connectLiteral, Builder.mem_connect]
  have reads : ⟨2, .literal Symbol.epsilonSign, 7⟩ ∈ sign.transitions := by
    simp [sign, Builder.finish, Builder.connectLiteral, Builder.mem_connect]
  have unaccepted : sign.accepts [] = false := by cbv
  refine ⟨(accepts_iff_walk sign [Symbol.epsilonSign]).1.mpr ?_, unaccepted, ?_⟩
  · exact ⟨[.epsilon, .literal Symbol.epsilonSign], .step circles (.step reads (.refl 7)), rfl⟩
  · rw [((accepts_iff_walk sign []).2.2 4 Symbol.epsilonSign 7).2 (by simp), unaccepted]

end Nfa

end RegexCompiler
