import RegexCompiler.Proofs.Decoding
import RegexCompiler.Proofs.Findings

/-!
Every set of the deterministic automaton but the first is entered by a character, which enters fewer sets
than the targets of its transitions have subsets.
-/

namespace RegexCompiler

/-! ## The sets of the deterministic automaton -/

/-- Every set that is found is the first one, or the last character of a word
    enters it. -/
theorem Dfa.mem_sets_toDfa_cases {nfa : Nfa} {alphabet : Alphabet} {states : StateSet}
    (member : states ∈ (nfa.toDfa alphabet).sets) :
    states = nfa.initial ∨ states ≠ ∅ ∧ ∃ char ∈ alphabet, ∃ active, states = nfa.advance active char := by
  obtain ⟨nonempty, word, listed, rfl⟩ := mem_sets_toDfa_iff.mp member
  rcases List.eq_nil_or_concat word with rfl | ⟨before, char, rfl⟩
  · exact .inl rfl
  · refine .inr ⟨nonempty, char, listed char (by simp), nfa.simulate before, ?_⟩
    rw [List.concat_eq_append, nfa.simulate_concat]

/-! ## Sets that a character enters -/

namespace Nfa

/-- The closures of some of the states, but at least one. -/
noncomputable def closures (nfa : Nfa) (targets : Finset StateId) : Finset StateSet :=
  (targets.powerset.erase ∅).image fun chosen => nfa.closure (.ofList chosen.toList)

theorem card_closures_le (nfa : Nfa) (targets : Finset StateId) :
    (nfa.closures targets).card ≤ 2 ^ targets.card - 1 := by
  calc (nfa.closures targets).card
    _ ≤ (targets.powerset.erase ∅).card := Finset.card_image_le
    _ = 2 ^ targets.card - 1 := by
        rw [Finset.card_erase_of_mem (Finset.empty_mem_powerset _), Finset.card_powerset]

variable {nfa : Nfa} {targets : Char → Finset StateId}
  (leads : ∀ source char target, ⟨source, .literal char, target⟩ ∈ nfa.transitions → target ∈ targets char)
include leads

/-- What is active after a character are states that its transitions lead to, and
    those that moves without reading lead to from there. -/
theorem advance_mem_closures {active : StateSet} {char : Char} (nonempty : nfa.advance active char ≠ ∅) :
    nfa.advance active char ∈ nfa.closures (targets char) := by
  let moved := (nfa.move active char).toList.toFinset
  have mem_moved (state : StateId) : state ∈ moved ↔ state ∈ nfa.move active char := by
    rw [List.mem_toFinset, Std.ExtTreeSet.mem_toList]
  have same : StateSet.ofList moved.toList = nfa.move active char := by
    refine Std.ExtTreeSet.ext_mem fun state => ?_
    rw [StateSet.mem_ofList, Finset.mem_toList, mem_moved]
  refine Finset.mem_image.mpr ⟨moved, Finset.mem_erase.mpr ⟨?_, Finset.mem_powerset.mpr ?_⟩, ?_⟩
  · intro none
    rw [none, Finset.toList_empty] at same
    apply nonempty
    rw [advance, ← same]
    exact nfa.closure_empty
  · intro state member
    obtain ⟨source, _, edge⟩ := mem_move.mp ((mem_moved state).mp member)
    exact leads source char state edge
  · rw [same]
    rfl

/-- There are at most as many states as the start and, for every character, the
    closures of some of the states that it leads to. -/
theorem size_toDfa_le (alphabet : Alphabet) :
    (nfa.toDfa alphabet).sets.size ≤ 1 + (alphabet.toList.map fun char => 2 ^ (targets char).card - 1).sum := by
  have covered : (nfa.toDfa alphabet).sets.toList.toFinset ⊆
      insert nfa.initial (alphabet.toList.toFinset.biUnion fun char => nfa.closures (targets char)) := by
    intro states member
    rw [List.mem_toFinset, Array.mem_toList_iff] at member
    rcases Dfa.mem_sets_toDfa_cases member with rfl | ⟨nonempty, char, listed, active, rfl⟩
    · exact Finset.mem_insert_self _ _
    · refine Finset.mem_insert_of_mem (Finset.mem_biUnion.mpr ⟨char, ?_, advance_mem_closures leads nonempty⟩)
      rw [List.mem_toFinset, Std.ExtTreeSet.mem_toList]
      exact listed
  calc (nfa.toDfa alphabet).sets.size
    _ = (nfa.toDfa alphabet).sets.toList.toFinset.card := by
        rw [List.toFinset_card_of_nodup (Dfa.nodup_sets_toDfa nfa alphabet), Array.length_toList]
    _ ≤ (alphabet.toList.toFinset.biUnion fun char => nfa.closures (targets char)).card + 1 :=
        (Finset.card_le_card covered).trans (Finset.card_insert_le _ _)
    _ ≤ (∑ char ∈ alphabet.toList.toFinset, (nfa.closures (targets char)).card) + 1 :=
        Nat.add_le_add_right Finset.card_biUnion_le 1
    _ ≤ (∑ char ∈ alphabet.toList.toFinset, (2 ^ (targets char).card - 1)) + 1 :=
        Nat.add_le_add_right (Finset.sum_le_sum fun char _ => nfa.card_closures_le (targets char)) 1
    _ = 1 + (alphabet.toList.map fun char => 2 ^ (targets char).card - 1).sum := by
        rw [List.sum_toFinset _ alphabet.nodup_toList, Nat.add_comm]

end Nfa

/-! ## Transitions on a character -/

namespace Tree

theorem countP_edges (t : Tree) (base : Nat) (char : Char) :
    (t.edges base).countP (·.symbol = .literal char) = t.literals.count char := by
  induction t generalizing base with
  | literal c =>
    by_cases same : c = char
    · simp [edges, literals, same]
    · simp [edges, literals, same]
  | concat first second ih ih' => simp [edges, literals, Nfa.Fragment.concatEdges, ih, ih']
  | alternation left right ih ih' => simp [edges, literals, Nfa.Fragment.alternationEdges, ih, ih']
  | star inner ih => simp [edges, literals, Nfa.Fragment.starEdges, ih]

/-- The states that the transitions on a character lead to. -/
def entries (t : Tree) (char : Char) : Finset StateId :=
  (((t.edges 0).filter (·.symbol = .literal char)).map (·.target)).toFinset

theorem target_mem_entries {t : Tree} {source target : StateId} {char : Char}
    (edge : ⟨source, .literal char, target⟩ ∈ t.nfa.transitions) : target ∈ t.entries char := by
  have listed := TransitionTable.mem_ofList.mp edge
  rw [entries, List.mem_toFinset]
  exact List.mem_map.mpr ⟨_, List.mem_filter.mpr ⟨listed, decide_eq_true rfl⟩, rfl⟩

theorem card_entries_le (t : Tree) (char : Char) : (t.entries char).card ≤ t.literals.count char := by
  rw [← t.countP_edges 0 char, List.countP_eq_length_filter, entries]
  refine (List.toFinset_card_le _).trans (Nat.le_of_eq ?_)
  rw [List.length_map]

/-- How often its literals occur bounds the deterministic automaton of an
    expression. -/
theorem size_toDfa_le (t : Tree) (alphabet : Alphabet) :
    (t.nfa.toDfa alphabet).sets.size ≤ 1 + (alphabet.toList.map fun char => 2 ^ t.literals.count char - 1).sum := by
  refine (Nfa.size_toDfa_le (fun _ _ _ => target_mem_entries) alphabet).trans (Nat.add_le_add_left ?_ 1)
  refine List.sum_le_sum fun char _ => Nat.sub_le_sub_right ?_ 1
  exact Nat.pow_le_pow_right Nat.two_pos (t.card_entries_le char)

end Tree

/-! ## Automata of expressions -/

theorem count_literalsOf {char : Char} (isLiteral : Token.ofChar char = .literal char) (text : List Char) :
    (literalsOf text).count char = text.count char := by
  rw [literalsOf, List.count_filterMap, List.count]
  refine List.countP_congr fun c _ => ?_
  rw [beq_iff_eq, beq_iff_eq, Token.literal?_eq_some_iff]
  constructor
  · intro role
    exact (Token.ofChar_eq_literal_iff.mp role).1
  · rintro rfl
    exact isLiteral

theorem length_alphabet_le (expression : String) :
    (Alphabet.ofExpression expression).toList.length ≤ (literalsOf expression.toList).length := by
  refine (Alphabet.nodup_toList _).length_le_of_subset fun char member => ?_
  exact Alphabet.mem_ofList.mp (Std.ExtTreeSet.mem_toList.mp member)

/-- Every literal of an expression enters fewer states than there are sets of its
    occurrences. If no literal occurs twice, there is at most one state for each of
    them beside the start. -/
theorem compile_numStates_le {expression : String} {compiled : Compiled} (compiles : compile expression = .ok compiled)
    (few : compiled.dfa.sets.size < UInt32.size) :
    compiled.dfa.numStates.toNat ≤
        1 + (compiled.alphabet.toList.map fun char => 2 ^ expression.toList.count char - 1).sum ∧
      ((literalsOf expression.toList).Nodup →
        compiled.dfa.numStates.toNat ≤ (literalsOf expression.toList).length + 1) := by
  obtain ⟨t, parses⟩ := parses_of_compile compiles
  rw [compile_of_parses parses] at compiles
  cases compiles
  have count := Dfa.toNat_numStates few
  have bound : (t.tree.nfa.toDfa (.ofExpression expression)).sets.size ≤
      1 + ((Alphabet.ofExpression expression).toList.map
        fun char => 2 ^ (literalsOf expression.toList).count char - 1).sum := by
    rw [← parses.literals_eq]
    exact t.tree.size_toDfa_le (.ofExpression expression)
  rw [count]
  constructor
  · have occurrences : ∀ char ∈ (Alphabet.ofExpression expression).toList,
        2 ^ (literalsOf expression.toList).count char - 1 = 2 ^ expression.toList.count char - 1 := by
      intro char member
      rw [count_literalsOf (Alphabet.mem_ofExpression.mp (Std.ExtTreeSet.mem_toList.mp member)).2]
    rw [List.map_congr_left occurrences] at bound
    exact bound
  · intro distinct
    have once : ∀ size ∈ (Alphabet.ofExpression expression).toList.map
        fun char => 2 ^ (literalsOf expression.toList).count char - 1, size ≤ 1 := by
      intro size member
      obtain ⟨char, _, rfl⟩ := List.mem_map.mp member
      exact Nat.sub_le_sub_right (Nat.pow_le_pow_right Nat.two_pos (List.nodup_iff_count_le_one.mp distinct char)) 1
    have sum := List.sum_le_card_nsmul _ 1 once
    rw [List.length_map, smul_eq_mul, Nat.mul_one] at sum
    refine bound.trans ?_
    rw [Nat.add_comm]
    exact Nat.add_le_add_right (sum.trans (length_alphabet_le expression)) 1

/-- A repetition of one literal and then another one. -/
theorem compile_numStates_le_repetition :
    ∃ compiled, compile "a*b" = .ok compiled ∧ compiled.dfa.sets.size < UInt32.size ∧
      (literalsOf "a*b".toList).Nodup ∧ compiled.dfa.numStates.toNat ≤ 3 := by
  have repeated : Parses .term 0 "a*".toList (.star 1 (.literal 'a' 0)) :=
    .ofFactor (.star (.ofAtom (.literal rfl)))
  have parses : Parses .expression 0 "a*b".toList (.concat 2 (.star 1 (.literal 'a' 0)) (.literal 'b' 2)) :=
    .ofTerm (.juxtaposition repeated (.ofAtom (.literal rfl)))
  have compiles := compile_of_parses parses
  have distinct : (literalsOf "a*b".toList).Nodup := by decide
  refine ⟨_, compiles, ?few, distinct, (compile_numStates_le compiles ?few).2 distinct⟩
  cbv

end RegexCompiler
