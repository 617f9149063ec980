import RegexCompiler.Dfa
import RegexCompiler.Nfa

/-! The deterministic automaton, whose states stand for the sets of states that the nondeterministic one may be in. -/

namespace RegexCompiler

/-- The deterministic automaton as far as it is known, and the states whose own
    transitions are not known yet, in the order in which they were found. -/
structure Exploration where
  dfa : Dfa
  waiting : List (StateId × StateSet)

namespace Exploration

/-- Only the start is known. -/
def initial (nfa : Nfa) (alphabet : Alphabet) : Exploration :=
  let (start, dfa) := Dfa.addState { alphabet } nfa.initial
  { dfa := dfa.setStart start, waiting := [(start, nfa.initial)] }

/-- Finds out where a character leads to from a state. -/
def follow (nfa : Nfa) (source : StateId) (active : StateSet) (e : Exploration) (char : Char) : Exploration :=
  let next := nfa.advance active char
  if next.isEmpty then e
  else
    match e.dfa.stateOf? next with
    | some target => { e with dfa := e.dfa.addTransition source char target }
    | none =>
      let (target, dfa) := e.dfa.addState next
      { dfa := dfa.addTransition source char target, waiting := e.waiting ++ [(target, next)] }

/-- Finds out where all characters of the alphabet lead to from a state. -/
def expand (nfa : Nfa) (source : StateId) (active : StateSet) (e : Exploration) : Exploration :=
  e.dfa.alphabet.toList.foldl (follow nfa source active) e

/-- How many sets of states were not found yet. -/
noncomputable def unknown (e : Exploration) : Nat :=
  outside StateSet.exists_all.choose e.dfa.sets.contains

/-- Following a character either finds a new set or leaves what was found, and
    what waits, as it is. -/
theorem follow_progress (nfa : Nfa) (source : StateId) (active : StateSet) (e : Exploration) (char : Char) :
    let after := follow nfa source active e char
    after.unknown < e.unknown ∨ after.unknown = e.unknown ∧ after.waiting = e.waiting := by
  simp only [follow]
  split
  · exact .inr ⟨rfl, rfl⟩
  · split
    · exact .inr ⟨rfl, rfl⟩
    · rename_i notFound
      refine .inl (outside_lt (a := nfa.advance active char) ?_ (StateSet.exists_all.choose_spec _) ?_ ?_)
      · intro states known
        simp only [Dfa.addState, Dfa.addTransition]
        simp at known ⊢
        exact .inl known
      · simp [Dfa.stateOf?] at notFound
        simpa using notFound
      · simp [Dfa.addState, Dfa.addTransition]

theorem expand_progress (nfa : Nfa) (source : StateId) (active : StateSet) (e : Exploration) :
    let after := expand nfa source active e
    after.unknown < e.unknown ∨ after.unknown = e.unknown ∧ after.waiting = e.waiting := by
  have along (chars : List Char) (before : Exploration) :
      let after := chars.foldl (follow nfa source active) before
      after.unknown < before.unknown ∨ after.unknown = before.unknown ∧ after.waiting = before.waiting := by
    induction chars generalizing before with
    | nil => exact .inr ⟨rfl, rfl⟩
    | cons char rest ih =>
      have first := follow_progress nfa source active before char
      have later := ih (follow nfa source active before char)
      simp only [List.foldl_cons] at first later ⊢
      rcases first with less | ⟨same, waits⟩
      · rcases later with less' | ⟨same', _⟩
        · exact .inl (Nat.lt_trans less' less)
        · exact .inl (same' ▸ less)
      · rcases later with less' | ⟨same', waits'⟩
        · exact .inl (same ▸ less')
        · exact .inr ⟨same'.trans same, waits'.trans waits⟩
  exact along e.dfa.alphabet.toList e

/-- Explores the waiting states one after another until none is left. -/
def run (nfa : Nfa) : Exploration → Dfa
  | ⟨dfa, []⟩ => dfa
  | ⟨dfa, (source, active) :: rest⟩ => run nfa (expand nfa source active ⟨dfa, rest⟩)
termination_by e => (e.unknown, e.waiting.length)
decreasing_by
  rcases expand_progress nfa source active ⟨dfa, rest⟩ with less | ⟨same, waits⟩
  · exact Prod.Lex.left _ _ less
  · rw [same, waits]
    exact Prod.Lex.right _ (by simp)

end Exploration

/-- Makes every state final that stands for a set with the given member. -/
def Dfa.markFinals (dfa : Dfa) (accept : StateId) : Dfa :=
  let accepting := dfa.sets.toList.zipIdx.filter (·.1.contains accept)
  { dfa with finals := StateSet.ofList (accepting.map fun (_, index) => UInt32.ofNat index) }

/-- The deterministic automaton that does over an alphabet what a
    nondeterministic one does. -/
def Nfa.toDfa (nfa : Nfa) (alphabet : Alphabet) : Dfa :=
  (Exploration.run nfa (Exploration.initial nfa alphabet)).markFinals nfa.accept

end RegexCompiler
