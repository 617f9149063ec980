import RegexCompiler.Proofs.Labels
import RegexCompiler.Proofs.Wiring

namespace RegexCompiler

/-! ## Labels -/

/-- Some transition reads the character. -/
def Nfa.HasLabel (nfa : Nfa) (char : Char) : Prop :=
  ∃ source target, ⟨source, .literal char, target⟩ ∈ nfa.transitions

theorem Tree.hasLabel_nfa_iff (t : Tree) {char : Char} : t.nfa.HasLabel char ↔ char ∈ t.literals := by
  rw [← List.count_pos_iff, ← t.countP_edges 0 char, List.countP_pos_iff]
  constructor
  · rintro ⟨source, target, edge⟩
    exact ⟨_, TransitionTable.mem_ofList.mp edge, decide_eq_true rfl⟩
  · rintro ⟨⟨source, symbol, target⟩, listed, reads⟩
    obtain rfl : symbol = .literal char := of_decide_eq_true reads
    exact ⟨source, target, TransitionTable.mem_ofList.mpr listed⟩

namespace Nfa

variable {nfa : Nfa} {alphabet : Alphabet}

/-- In a trim automaton a transition is part of the way of some accepted word. -/
theorem Trim.exists_accepts_of_hasLabel (trim : nfa.Trim) (wired : nfa.Wired) {char : Char} (label : nfa.HasLabel char) :
    ∃ word, char ∈ word ∧ nfa.accepts word = true := by
  obtain ⟨source, target, edge⟩ := label
  obtain ⟨u, before⟩ := (trim source (wired.source_lt _ edge)).from_start
  obtain ⟨v, after⟩ := (trim target (wired.target_lt _ edge)).to_accept
  refine ⟨u ++ char :: v, by simp, accepts_iff.mpr (mem_simulate.mpr ?_)⟩
  exact before.trans (.literal edge after)

namespace KeepsTo

theorem accepts_eq_false (keeps : nfa.KeepsTo alphabet) {word : List Char} {char : Char} (member : char ∈ word)
    (outside : char ∉ alphabet) : nfa.accepts word = false := by
  rw [← Bool.not_eq_true]
  intro accepted
  exact outside (keeps.mem_alphabet word accepted char member)

/-- Nothing is lost by making an automaton deterministic over an alphabet that it
    keeps to. -/
theorem accepts_toDfa_eq (keeps : nfa.KeepsTo alphabet) (room : (nfa.toDfa alphabet).sets.size ≤ UInt32.size)
    (word : List Char) : (nfa.toDfa alphabet).accepts word = nfa.accepts word := by
  rw [Bool.eq_iff_iff, accepts_toDfa_iff room]
  constructor
  · rintro ⟨_, accepted⟩
    exact accepted
  · intro accepted
    exact ⟨keeps.mem_alphabet word accepted, accepted⟩

end KeepsTo

end Nfa

/-! ## Alphabets of expressions -/

/-- The alphabet of an expression has exactly the labels of its automaton, each of
    which occurs in an accepted word. Both automata accept the same words, and none
    with a character outside of the alphabet. -/
theorem compile_alphabet {expression : String} {compiled : Compiled} (short : expression.length < 2 ^ 31)
    (compiles : compile expression = .ok compiled) :
    (∀ char, char ∈ compiled.alphabet ↔ compiled.nfa.HasLabel char) ∧
    (∀ char ∈ compiled.alphabet, ∃ word, char ∈ word ∧ compiled.nfa.accepts word = true) ∧
    (compiled.dfa.sets.size < UInt32.size → ∀ word, compiled.dfa.accepts word = compiled.nfa.accepts word) ∧
    ∀ word, (∃ char ∈ word, char ∉ compiled.alphabet) → compiled.nfa.accepts word = false ∧
      (compiled.dfa.sets.size < UInt32.size → compiled.dfa.accepts word = false) := by
  obtain ⟨t, parses⟩ := parses_of_compile compiles
  have few := parses.stateCount_lt short
  rw [compile_of_parses parses, parses.alphabet_eq] at compiles
  cases compiles
  have keeps := t.tree.keepsTo_nfa few
  have labels (char : Char) : char ∈ Alphabet.ofList t.tree.literals ↔ t.tree.nfa.HasLabel char := by
    rw [Alphabet.mem_ofList, t.tree.hasLabel_nfa_iff]
  refine ⟨labels, fun char member => ?_, fun fewSets => keeps.accepts_toDfa_eq (Nat.le_of_lt fewSets), ?_⟩
  · exact (t.tree.trim_nfa few).exists_accepts_of_hasLabel (t.tree.wired_nfa few) ((labels char).mp member)
  · rintro word ⟨char, member, outside⟩
    have rejected := keeps.accepts_eq_false member outside
    refine ⟨rejected, fun fewSets => ?_⟩
    exact (keeps.accepts_toDfa_eq (Nat.le_of_lt fewSets) word).trans rejected

/-- The sign of a move without reading may also be a literal. -/
theorem compile_alphabet_sign :
    ∃ compiled, compile "ε*b" = .ok compiled ∧ compiled.nfa.HasLabel 'ε' ∧ compiled.dfa.sets.size < UInt32.size ∧
      (∀ word, compiled.dfa.accepts word = compiled.nfa.accepts word) ∧
      compiled.dfa.accepts ['b', 'a'] = false := by
  have parses : Parses .expression 0 "ε*b".toList (.concat 2 (.star 1 (.literal 'ε' 0)) (.literal 'b' 2)) :=
    .ofTerm (.juxtaposition (.ofFactor (.star (.ofAtom (.literal rfl)))) (.ofAtom (.literal rfl)))
  have compiles := compile_of_parses parses
  obtain ⟨labels, _, agree, rejects⟩ := compile_alphabet (by decide) compiles
  refine ⟨_, compiles, (labels 'ε').mp ?_, ?few, agree ?few, (rejects ['b', 'a'] ⟨'a', by simp, ?_⟩).2 ?few⟩
  · exact Alphabet.mem_ofExpression.mpr ⟨by decide, rfl⟩
  · cbv
  · intro member
    have inText := (Alphabet.mem_ofExpression.mp member).1
    revert inText
    decide

end RegexCompiler
