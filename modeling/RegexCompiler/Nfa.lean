import RegexCompiler.TransitionTable
import RegexCompiler.Reachability

namespace RegexCompiler

/-- A nondeterministic automaton; `numStates` counts the states that were
    allocated, whether or not the transitions stay among them. -/
structure Nfa where
  numStates : StateId
  start : StateId
  accept : StateId
  transitions : TransitionTable

namespace Nfa

/-- The given states and all that moves without reading lead to. -/
def closure (nfa : Nfa) (states : StateSet) : StateSet :=
  reachable (nfa.transitions.targets · .epsilon) states

/-- The states that reading a character leads to, without any other move. -/
def move (nfa : Nfa) (states : StateSet) (char : Char) : StateSet :=
  states.foldl (fun reached state => reached ∪ nfa.transitions.targets state (.literal char)) ∅

/-- The states that the automaton may be in after it has read a character. -/
def advance (nfa : Nfa) (active : StateSet) (char : Char) : StateSet :=
  nfa.closure (nfa.move active char)

/-- The states that the automaton may be in before it reads. -/
def initial (nfa : Nfa) : StateSet :=
  nfa.closure {nfa.start}

/-- The states that the automaton may be in after a word. -/
def simulate (nfa : Nfa) (word : List Char) : StateSet :=
  word.foldl nfa.advance nfa.initial

/-- Reads on from a set of states, and gives up as soon as no state is left. -/
def acceptsFrom (nfa : Nfa) (active : StateSet) : List Char → Bool
  | [] => active.contains nfa.accept
  | char :: rest =>
    let next := nfa.advance active char
    if next.isEmpty then false else nfa.acceptsFrom next rest

/-- Whether the automaton accepts a word. -/
def accepts (nfa : Nfa) (word : List Char) : Bool :=
  nfa.acceptsFrom nfa.initial word

/-- A state is in a closure exactly when moves without reading lead to it. -/
theorem mem_closure {nfa : Nfa} {states : StateSet} {target : StateId} :
    target ∈ nfa.closure states ↔
      ∃ source ∈ states, Reaches (nfa.transitions.targets · .epsilon) source target :=
  mem_reachable

theorem mem_move {nfa : Nfa} {states : StateSet} {char : Char} {target : StateId} :
    target ∈ nfa.move states char ↔
      ∃ source ∈ states, ⟨source, .literal char, target⟩ ∈ nfa.transitions := by
  have along (sources : List StateId) (reached : StateSet) :
      target ∈ sources.foldl (fun r s => r ∪ nfa.transitions.targets s (.literal char)) reached ↔
        target ∈ reached ∨ ∃ source ∈ sources, ⟨source, .literal char, target⟩ ∈ nfa.transitions := by
    induction sources generalizing reached with
    | nil => simp
    | cons source rest ih =>
      simp only [List.foldl_cons, ih, Std.ExtTreeSet.mem_union_iff, TransitionTable.mem_def,
        List.mem_cons, exists_eq_or_imp, or_assoc]
  rw [move, Std.ExtTreeSet.foldl_eq_foldl_toList, along]
  simp [Std.ExtTreeSet.mem_toList]

theorem eq_empty_of_sources {states : StateSet} {leads : StateId → StateId → Prop}
    (sources : ∀ target ∈ states, ∃ source ∈ (∅ : StateSet), leads source target) : states = ∅ := by
  refine Std.ExtTreeSet.eq_empty_iff_forall_not_mem.mpr fun target member => ?_
  obtain ⟨source, none, _⟩ := sources target member
  exact StateSet.not_mem_empty source none

@[simp] theorem closure_empty (nfa : Nfa) : nfa.closure ∅ = ∅ :=
  eq_empty_of_sources fun _ => mem_closure.mp

@[simp] theorem move_empty (nfa : Nfa) (char : Char) : nfa.move ∅ char = ∅ :=
  eq_empty_of_sources fun _ => mem_move.mp

theorem foldl_advance_empty (nfa : Nfa) (word : List Char) : word.foldl nfa.advance ∅ = ∅ := by
  induction word with
  | nil => rfl
  | cons char rest ih => simpa [advance] using ih

/-- Giving up early does not change the answer. -/
theorem acceptsFrom_eq (nfa : Nfa) (active : StateSet) (word : List Char) :
    nfa.acceptsFrom active word = (word.foldl nfa.advance active).contains nfa.accept := by
  induction word generalizing active with
  | nil => rfl
  | cons char rest ih =>
    rw [acceptsFrom, List.foldl_cons]
    by_cases gone : (nfa.advance active char).isEmpty
    · rw [if_pos gone, Std.ExtTreeSet.isEmpty_iff.1 gone, foldl_advance_empty]
      exact Std.ExtTreeSet.contains_empty.symm
    · rw [if_neg gone, ih]

/-- A word is accepted exactly when the accepting state is among those that the
    automaton may be in after it. -/
theorem accepts_iff {nfa : Nfa} {word : List Char} :
    nfa.accepts word ↔ nfa.accept ∈ nfa.simulate word := by
  rw [accepts, acceptsFrom_eq]
  exact Std.ExtTreeSet.contains_iff_mem

end Nfa

end RegexCompiler
