import RegexCompiler.Proofs.Decoding
import RegexCompiler.Proofs.Emptiness
import RegexCompiler.Proofs.Numbering

namespace RegexCompiler

/-! ## States on the way through a fragment -/

/-- Some word leads from one state to another. -/
def Connected (table : TransitionTable) (source target : StateId) : Prop :=
  ∃ word, Path table source word target

namespace Connected

theorem refl (table : TransitionTable) (state : StateId) : Connected table state state :=
  ⟨[], .refl state⟩

theorem trans {table : TransitionTable} {source middle target : StateId} (first : Connected table source middle)
    (second : Connected table middle target) : Connected table source target := by
  obtain ⟨u, path⟩ := first
  obtain ⟨v, path'⟩ := second
  exact ⟨u ++ v, path.trans path'⟩

theorem edge {transitions : List Transition} {source target : StateId} (symbol : Symbol)
    (listed : ⟨source, symbol, target⟩ ∈ transitions) : Connected (.ofList transitions) source target := by
  rw [← TransitionTable.mem_ofList] at listed
  cases symbol with
  | epsilon => exact ⟨[], .epsilon listed (.refl target)⟩
  | literal char => exact ⟨[char], .literal listed (.refl target)⟩

theorem widen {inner : List Transition} (outer : List Transition) (sub : inner ⊆ outer) {source target : StateId}
    (connected : Connected (.ofList inner) source target) : Connected (.ofList outer) source target := by
  obtain ⟨word, path⟩ := connected
  exact ⟨word, path.widen outer sub⟩

end Connected

/-- The state lies on a path from `start` to `accept`. -/
structure OnWay (table : TransitionTable) (start accept state : StateId) : Prop where
  from_start : Connected table start state
  to_accept : Connected table state accept

/-- A path through a part of a table that is led into and out of is part of a
    longer one. -/
theorem OnWay.enclose {inner : List Transition} {start accept start' accept' state : StateId}
    (on : OnWay (.ofList inner) start accept state) (outer : List Transition) (sub : inner ⊆ outer)
    (enter : Connected (.ofList outer) start' start) (leave : Connected (.ofList outer) accept accept') :
    OnWay (.ofList outer) start' accept' state where
  from_start := enter.trans (on.from_start.widen outer sub)
  to_accept := (on.to_accept.widen outer sub).trans leave

/-- Every state of the range lies on a path through the fragment. -/
def Spans (transitions : List Transition) (low high : Nat) (fragment : Nfa.Fragment) : Prop :=
  ∀ state, Within low high state → OnWay (.ofList transitions) fragment.start fragment.accept state

namespace Within

theorem split {low high : Nat} (middle : Nat) {state : StateId} (inside : Within low high state) :
    Within low middle state ∨ Within middle high state := by
  obtain ⟨lower, higher⟩ := inside
  by_cases less : state.toNat < middle
  · exact .inl ⟨lower, less⟩
  · exact .inr ⟨Nat.le_of_not_lt less, higher⟩

theorem eq_of_between {number : Nat} {state : StateId} (inside : Within number (number + 2) state) :
    state = (Nfa.Fragment.between number).start ∨ state = (Nfa.Fragment.between number).accept := by
  obtain ⟨lower, higher⟩ := inside
  rcases Nat.lt_or_ge state.toNat (number + 1) with less | more
  · left
    rw [Nfa.Fragment.between, ← Nat.le_antisymm (Nat.le_of_lt_succ less) lower, UInt32.ofNat_toNat]
  · right
    rw [Nfa.Fragment.between, ← Nat.le_antisymm (Nat.le_of_lt_succ higher) more, UInt32.ofNat_toNat]

end Within

namespace Spans
open Nfa.Fragment

variable {first second : List Transition} {low middle high : Nat} {f g : Nfa.Fragment}

theorem through (spans : Spans first low high f) (isolated : Isolated first low high f) :
    Connected (.ofList first) f.start f.accept :=
  (spans f.accept isolated.accept_within).from_start

/-- The two states of a fragment between a state and the next one are on the way
    as soon as one leads to the other. -/
theorem of_across {transitions : List Transition} {number : Nat}
    (across : Connected (.ofList transitions) (between number).start (between number).accept) :
    Spans transitions number (number + 2) (between number) := by
  intro state inside
  rcases inside.eq_of_between with rfl | rfl
  · exact ⟨.refl _ _, across⟩
  · exact ⟨across, .refl _ _⟩

theorem literal (number : Nat) (symbol : Symbol) :
    Spans [⟨(between number).start, symbol, (between number).accept⟩] number (number + 2) (between number) := by
  apply of_across
  exact .edge symbol (.head _)

theorem concat (left : Spans first low middle f) (right : Spans second middle high g)
    (isolated : Isolated first low middle f) (isolated' : Isolated second middle high g) :
    Spans (first ++ second ++ f.concatEdges g) low high ⟨f.start, g.accept⟩ := by
  let whole := first ++ second ++ f.concatEdges g
  have joins : Connected (.ofList whole) f.accept g.start := .edge .epsilon (by simp [whole, concatEdges])
  have before := (left.through isolated).widen whole (by simp [whole])
  have after := (right.through isolated').widen whole (by simp [whole])
  intro state inside
  rcases inside.split middle with inFirst | inSecond
  · exact (left state inFirst).enclose whole (by simp [whole]) (.refl _ _) (joins.trans after)
  · exact (right state inSecond).enclose whole (by simp [whole]) (before.trans joins) (.refl _ _)

theorem alternation (left : Spans first low middle f) (right : Spans second middle high g)
    (isolated : Isolated first low middle f) :
    Spans (first ++ second ++ (between high).alternationEdges f g) low (high + 2) (between high) := by
  let whole := first ++ second ++ (between high).alternationEdges f g
  have edge {source target : StateId} (listed : ⟨source, .epsilon, target⟩ ∈ (between high).alternationEdges f g) :
      Connected (.ofList whole) source target :=
    .edge .epsilon (List.mem_append_right _ listed)
  have enterLeft : Connected (.ofList whole) (between high).start f.start := edge (by simp [alternationEdges])
  have enterRight : Connected (.ofList whole) (between high).start g.start := edge (by simp [alternationEdges])
  have leaveLeft : Connected (.ofList whole) f.accept (between high).accept := edge (by simp [alternationEdges])
  have leaveRight : Connected (.ofList whole) g.accept (between high).accept := edge (by simp [alternationEdges])
  have across := (left.through isolated).widen whole (by simp [whole])
  intro state inside
  rcases inside.split high with operand | own
  · rcases operand.split middle with inLeft | inRight
    · exact (left state inLeft).enclose whole (by simp [whole]) enterLeft leaveLeft
    · exact (right state inRight).enclose whole (by simp [whole]) enterRight leaveRight
  · exact of_across (enterLeft.trans (across.trans leaveLeft)) state own

theorem star (spans : Spans first low high f) :
    Spans (first ++ (between high).starEdges f) low (high + 2) (between high) := by
  let whole := first ++ (between high).starEdges f
  have edge {source target : StateId} (listed : ⟨source, .epsilon, target⟩ ∈ (between high).starEdges f) :
      Connected (.ofList whole) source target :=
    .edge .epsilon (List.mem_append_right _ listed)
  have enter : Connected (.ofList whole) (between high).start f.start := edge (by simp [starEdges])
  have leave : Connected (.ofList whole) f.accept (between high).accept := edge (by simp [starEdges])
  have stop : Connected (.ofList whole) (between high).start (between high).accept := edge (by simp [starEdges])
  intro state inside
  rcases inside.split high with operand | own
  · exact (spans state operand).enclose whole (by simp [whole]) enter leave
  · exact of_across stop state own

end Spans

theorem Tree.spans (t : Tree) {base : Nat} (room : base + t.stateCount ≤ UInt32.size) :
    Spans (t.edges base) base (base + t.stateCount) (t.fragment base) := by
  induction t generalizing base with
  | literal char => exact Spans.literal base (.literal char)
  | concat first second ihFirst ihSecond =>
    rw [stateCount, ← Nat.add_assoc] at room ⊢
    have roomFirst : base + first.stateCount ≤ UInt32.size := by omega
    exact (ihFirst roomFirst).concat (ihSecond room) (first.isolated roomFirst) (second.isolated room)
  | alternation left right ihLeft ihRight =>
    rw [stateCount, ← Nat.add_assoc, ← Nat.add_assoc] at room ⊢
    have roomLeft : base + left.stateCount ≤ UInt32.size := by omega
    exact (ihLeft roomLeft).alternation (ihRight (by omega)) (left.isolated roomLeft)
  | star inner ih =>
    rw [stateCount, ← Nat.add_assoc] at room ⊢
    exact (ih (by omega)).star

/-! ## Trim automata -/

/-- Every allocated state lies on a path from the start to the accepting state. -/
def Nfa.Trim (nfa : Nfa) : Prop :=
  ∀ state, state < nfa.numStates → OnWay nfa.transitions nfa.start nfa.accept state

/-- The automaton goes only to states that were allocated, and accepts only words
    over the alphabet. -/
structure Nfa.KeepsTo (nfa : Nfa) (alphabet : Alphabet) : Prop where
  start_lt : nfa.start < nfa.numStates
  target_lt : ∀ transition, transition ∈ nfa.transitions → transition.target < nfa.numStates
  mem_alphabet : ∀ word, nfa.accepts word = true → ∀ char ∈ word, char ∈ alphabet

namespace Nfa

variable {nfa : Nfa} {alphabet : Alphabet}

theorem KeepsTo.lt_of_path (keeps : nfa.KeepsTo alphabet) {source target : StateId} {word : List Char}
    (path : Path nfa.transitions source word target) (begins : source < nfa.numStates) : target < nfa.numStates := by
  induction path with
  | refl => exact begins
  | epsilon edge _ ih | literal edge _ ih => exact ih (keeps.target_lt _ edge)

theorem Trim.exists_accepts (trim : nfa.Trim) (keeps : nfa.KeepsTo alphabet) {u : List Char}
    (active : nfa.simulate u ≠ ∅) : ∃ v, nfa.accepts (u ++ v) = true := by
  obtain ⟨state, member⟩ : ∃ state, state ∈ nfa.simulate u := by
    simpa [Std.ExtTreeSet.eq_empty_iff_forall_not_mem] using active
  have path := mem_simulate.mp member
  obtain ⟨v, path'⟩ := (trim state (keeps.lt_of_path path keeps.start_lt)).to_accept
  exact ⟨v, accepts_iff.mpr (mem_simulate.mpr (path.trans path'))⟩

theorem Trim.exists_accepted (trim : nfa.Trim) (keeps : nfa.KeepsTo alphabet) :
    ∃ word, (∀ char ∈ word, char ∈ alphabet) ∧ nfa.accepts word = true := by
  obtain ⟨word, accepted⟩ := trim.exists_accepts keeps (u := []) nfa.initial_ne_empty
  exact ⟨word, keeps.mem_alphabet word accepted, accepted⟩

section

variable (trim : nfa.Trim) (keeps : nfa.KeepsTo alphabet) (room : (nfa.toDfa alphabet).sets.size ≤ UInt32.size)
include trim keeps room

/-- From every state of the deterministic automaton a word over the alphabet
    leads to an accepting one. -/
theorem Trim.exists_isFinal {state : StateId} {states : StateSet}
    (known : (nfa.toDfa alphabet).states? state = some states) :
    ∃ word last, (∀ char ∈ word, char ∈ alphabet) ∧ (nfa.toDfa alphabet).runFrom state word = some last ∧
      (nfa.toDfa alphabet).isFinal last = true := by
  obtain ⟨u, runs⟩ := Dfa.exists_run room known
  obtain ⟨_, _, active, _⟩ := simulates_of_run room runs
  obtain ⟨v, accepted⟩ := trim.exists_accepts keeps active
  have inside := keeps.mem_alphabet (u ++ v) accepted
  rw [accepts_iff] at accepted
  obtain ⟨last, runs'⟩ := (exists_run_iff room (u ++ v)).mpr ⟨inside, Std.ExtTreeSet.ne_empty_of_mem accepted⟩
  refine ⟨v, last, fun char member => inside char (List.mem_append_right u member), ?_, ?_⟩
  · rwa [Dfa.run_append, runs, Option.bind_some] at runs'
  · exact (simulates_of_run room runs').2.1.mpr accepted

theorem Trim.isEmpty_eq_false : (nfa.toDfa alphabet).isEmpty = false := by
  obtain ⟨last, inv⟩ := explores_toDfa room
  have sameAlphabet : (nfa.toDfa alphabet).alphabet = alphabet := inv.alphabet_eq
  obtain ⟨word, inside, accepted⟩ := trim.exists_accepted keeps
  rw [Dfa.isEmpty_eq_false_iff, sameAlphabet]
  exact ⟨word, inside, (accepts_toDfa_iff room word).mpr ⟨inside, accepted⟩⟩

end

end Nfa

/-! ## Automata of expressions -/

namespace Tree

theorem lt_numStates_nfa_iff (t : Tree) (few : t.stateCount < UInt32.size) {state : StateId} :
    state < t.nfa.numStates ↔ Within 0 (0 + t.stateCount) state := by
  rw [UInt32.lt_iff_toNat_lt, nfa, UInt32.toNat_ofNat_of_lt' few, Within]
  omega

theorem trim_nfa (t : Tree) (few : t.stateCount < UInt32.size) : t.nfa.Trim := by
  intro state allocated
  exact t.spans (by omega) state ((t.lt_numStates_nfa_iff few).mp allocated)

theorem keepsTo_nfa (t : Tree) (few : t.stateCount < UInt32.size) : t.nfa.KeepsTo (.ofList t.literals) := by
  have isolated : Isolated (t.edges 0) 0 (0 + t.stateCount) (t.fragment 0) := t.isolated (by omega)
  constructor
  · exact (t.lt_numStates_nfa_iff few).mpr isolated.start_within
  · intro transition member
    rw [t.lt_numStates_nfa_iff few]
    exact isolated.target_within transition (TransitionTable.mem_ofList.mp member)
  · intro word accepted char member
    rw [Nfa.accepts_iff, Nfa.mem_simulate, t.path_nfa_iff (Nat.le_of_lt few)] at accepted
    exact Alphabet.mem_ofList.mpr (accepted.mem_literals char member)

end Tree

/-- Every state of an automaton is there for a literal, a star or an alternation
    sign of the text. -/
theorem Parses.stateCount_le {category : Category} {i : Nat} {w : List Char} {t : PlacedTree}
    (parses : Parses category i w t) : t.tree.stateCount ≤ 2 * w.length := by
  induction parses with
  | ofTerm _ ih | ofFactor _ ih | ofAtom _ ih => exact ih
  | literal => simp [PlacedTree.tree, Tree.stateCount]
  | alternation _ _ ih ih' | juxtaposition _ _ ih ih' | concat _ _ ih ih' =>
    simp only [PlacedTree.tree, Tree.stateCount, List.length_append, List.length_cons]
    omega
  | star _ ih =>
    simp only [PlacedTree.tree, Tree.stateCount, List.length_append, List.length_singleton]
    omega
  | group _ ih =>
    simp only [List.length_append, List.length_cons]
    omega

theorem Parses.stateCount_lt {category : Category} {i : Nat} {expression : String} {t : PlacedTree}
    (parses : Parses category i expression.toList t) (short : expression.length < 2 ^ 31) :
    t.tree.stateCount < UInt32.size := by
  have bound := parses.stateCount_le
  rw [String.length_toList] at bound
  rw [UInt32.size]
  omega

/-- The automaton of an expression is trim, so it accepts some word over the
    alphabet. In the deterministic automaton no state is dead, and it is not
    empty. -/
theorem compile_trim {expression : String} {compiled : Compiled} (short : expression.length < 2 ^ 31)
    (compiles : compile expression = .ok compiled) :
    compiled.nfa.Trim ∧
    (∃ word, (∀ char ∈ word, char ∈ compiled.alphabet) ∧ compiled.nfa.accepts word = true) ∧
    (compiled.dfa.sets.size < UInt32.size →
      (∀ state, state < compiled.dfa.numStates → ∃ word last, (∀ char ∈ word, char ∈ compiled.alphabet) ∧
        compiled.dfa.runFrom state word = some last ∧ compiled.dfa.isFinal last = true) ∧
      compiled.dfa.isEmpty = false) := by
  obtain ⟨t, parses⟩ := parses_of_compile compiles
  have few := parses.stateCount_lt short
  rw [compile_of_parses parses, parses.alphabet_eq] at compiles
  cases compiles
  have trim := t.tree.trim_nfa few
  have keeps := t.tree.keepsTo_nfa few
  refine ⟨trim, trim.exists_accepted keeps, fun fewSets => ⟨fun state allocated => ?_, ?_⟩⟩
  · obtain ⟨states, known⟩ := (Dfa.lt_numStates_iff fewSets).mp allocated
    exact trim.exists_isFinal keeps (Nat.le_of_lt fewSets) known
  · exact trim.isEmpty_eq_false keeps (Nat.le_of_lt fewSets)

theorem compile_trim_choices :
    ∃ compiled, compile "(a|b)*c" = .ok compiled ∧ compiled.nfa.Trim ∧ compiled.dfa.sets.size < UInt32.size ∧
      compiled.dfa.isEmpty = false := by
  have choice : Parses .expression 1 ['a', '|', 'b'] (.alternation 2 (.literal 'a' 1) (.literal 'b' 3)) :=
    .alternation (.ofTerm (.ofFactor (.ofAtom (.literal rfl)))) (.ofFactor (.ofAtom (.literal rfl)))
  have choices : Parses .factor 0 "(a|b)*".toList (.star 5 (.alternation 2 (.literal 'a' 1) (.literal 'b' 3))) :=
    .star (.ofAtom (.group choice))
  have parses : Parses .expression 0 "(a|b)*c".toList
      (.concat 6 (.star 5 (.alternation 2 (.literal 'a' 1) (.literal 'b' 3))) (.literal 'c' 6)) :=
    .ofTerm (.juxtaposition (.ofFactor choices) (.ofAtom (.literal rfl)))
  have compiles := compile_of_parses parses
  obtain ⟨trim, _, alive⟩ := compile_trim (by decide) compiles
  refine ⟨_, compiles, trim, ?few, (alive ?few).2⟩
  cbv

end RegexCompiler
