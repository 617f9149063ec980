import RegexCompiler.Proofs.Operands
import RegexCompiler.Proofs.Provenance
import RegexCompiler.Proofs.Trim

/-!
No operator states a transition that is there already, since those that it adds start where none has left
yet and end where none has entered yet. The same keeps the degrees small (`Sparse.append`).
-/

namespace RegexCompiler

/-! ## The transitions of a table -/

namespace TransitionTable

theorem nodup_moves (table : TransitionTable) : table.moves.Nodup := by
  rw [moves, List.nodup_flatMap]
  constructor
  -- A row has no target twice, and no two rows have the same state and symbol.
  · rintro row -
    refine (StateSet.nodup_toList row.2).map ?_
    rintro target target' same
    exact congrArg Transition.target same
  · refine table.rows.distinct_keys_toList.imp fun {row row'} apart => ?_
    rw [Function.onFun, List.disjoint_left]
    rintro transition member member'
    obtain ⟨_, _, rfl⟩ := List.mem_map.mp member
    obtain ⟨_, _, same⟩ := List.mem_map.mp member'
    obtain ⟨sameSource, sameSymbol, _⟩ := Transition.mk.inj same
    exact apart (Std.LawfulEqCmp.compare_eq_iff_eq.mpr (Prod.ext sameSource.symm sameSymbol.symm))

/-- A table made of different transitions lists just these. -/
theorem moves_ofList_perm {transitions : List Transition} (distinct : transitions.Nodup) :
    (ofList transitions).moves.Perm transitions :=
  (List.perm_ext_iff_of_nodup (nodup_moves _) distinct).mpr fun _ => mem_moves.trans mem_ofList

end TransitionTable

/-! ## The transitions at a state -/

/-- The transitions out of a state. -/
def leaving (edges : List Transition) (state : StateId) : List Transition :=
  edges.filter (·.source = state)

/-- The transitions into a state. -/
def entering (edges : List Transition) (state : StateId) : List Transition :=
  edges.filter (·.target = state)

/-- A state is left by reading a single character, or without reading in one or two
    ways. -/
def Outlets (symbols : List Symbol) : Prop :=
  (∃ char, symbols = [.literal char]) ∨ symbols = [.epsilon] ∨ symbols = [.epsilon, .epsilon]

theorem Outlets.single (symbol : Symbol) : Outlets [symbol] := by
  cases symbol with
  | literal char => exact .inl ⟨char, rfl⟩
  | epsilon => exact .inr (.inl rfl)

theorem Outlets.perm {symbols symbols' : List Symbol} (outlets : Outlets symbols) (same : symbols'.Perm symbols) :
    Outlets symbols' := by
  rcases outlets with ⟨char, rfl⟩ | rfl | rfl
  · exact .inl ⟨char, List.perm_singleton.mp same⟩
  · exact .inr (.inl (List.perm_singleton.mp same))
  · exact .inr (.inr ((List.perm_replicate : symbols'.Perm (.replicate 2 .epsilon) ↔ _).mp same))

/-- Transitions whose ends differ from those of others are not at the same states. -/
theorem filter_append_of_apart {ending : Transition → StateId} {before after : List Transition}
    (apart : ∀ edge ∈ before, ∀ edge' ∈ after, ending edge ≠ ending edge') (state : StateId) :
    (before ++ after).filter (ending · = state) = before.filter (ending · = state) ∨
      (before ++ after).filter (ending · = state) = after.filter (ending · = state) := by
  rw [List.filter_append]
  by_cases inBefore : ∃ edge ∈ before, ending edge = state
  · obtain ⟨edge, member, rfl⟩ := inBefore
    have none : after.filter (ending · = ending edge) = [] := by
      simpa [List.filter_eq_nil_iff] using fun edge' member' => (apart edge member edge' member').symm
    exact .inl (by rw [none, List.append_nil])
  · have none : before.filter (ending · = state) = [] := by
      simpa [List.filter_eq_nil_iff] using inBefore
    exact .inr (by rw [none, List.nil_append])

namespace Isolated

variable {first second : List Transition} {low middle high : Nat} {f g : Nfa.Fragment}

/-- Side by side, both fragments still wait for what enters their starts and leaves
    their accepting states. -/
theorem beside_ne (left : Isolated first low middle f) (right : Isolated second middle high g) {edge : Transition}
    (member : edge ∈ first ++ second) :
    (edge.source ≠ f.accept ∧ edge.source ≠ g.accept) ∧ edge.target ≠ f.start ∧ edge.target ≠ g.start := by
  rcases List.mem_append.mp member with inFirst | inSecond
  · have source := left.source_within _ inFirst
    have target := left.target_within _ inFirst
    exact ⟨⟨left.source_ne _ inFirst, source.ne right.accept_within (.inl (Nat.le_refl _))⟩,
      left.target_ne _ inFirst, target.ne right.start_within (.inl (Nat.le_refl _))⟩
  · have source := right.source_within _ inSecond
    have target := right.target_within _ inSecond
    exact ⟨⟨source.ne left.accept_within (.inr (Nat.le_refl _)), right.source_ne _ inSecond⟩,
      target.ne left.start_within (.inr (Nat.le_refl _)), right.target_ne _ inSecond⟩

theorem beside_within (left : Isolated first low middle f) (right : Isolated second middle high g) {edge : Transition}
    (member : edge ∈ first ++ second) : Within low high edge.source ∧ Within low high edge.target := by
  have lower := left.start_within.low_lt_high
  have higher := right.start_within.low_lt_high
  rcases List.mem_append.mp member with inFirst | inSecond
  · exact ⟨(left.source_within _ inFirst).mono (Nat.le_refl _) (by omega),
      (left.target_within _ inFirst).mono (Nat.le_refl _) (by omega)⟩
  · exact ⟨(right.source_within _ inSecond).mono (by omega) (Nat.le_refl _),
      (right.target_within _ inSecond).mono (by omega) (Nat.le_refl _)⟩

end Isolated

/-- No transition is stated twice, and only few are at the same state. -/
structure Sparse (edges : List Transition) : Prop where
  nodup : edges.Nodup
  outlets : ∀ state, leaving edges state = [] ∨ Outlets ((leaving edges state).map (·.symbol))
  entering_le : ∀ state, (entering edges state).length ≤ 2

namespace Sparse
open Nfa.Fragment

theorem perm {edges edges' : List Transition} (sparse : Sparse edges) (same : edges'.Perm edges) : Sparse edges' where
  nodup := same.nodup_iff.mpr sparse.nodup
  outlets state := by
    have sameHere : (leaving edges' state).Perm (leaving edges state) := same.filter _
    refine (sparse.outlets state).imp ?_ fun outlets => outlets.perm (sameHere.map _)
    intro none
    rw [none] at sameHere
    exact sameHere.eq_nil
  entering_le state := by
    have sameHere : (entering edges' state).Perm (entering edges state) := same.filter _
    rw [sameHere.length_eq]
    exact sparse.entering_le state

theorem append {before after : List Transition} (sparse : Sparse before) (sparse' : Sparse after)
    (sources : ∀ edge ∈ before, ∀ edge' ∈ after, edge.source ≠ edge'.source)
    (targets : ∀ edge ∈ before, ∀ edge' ∈ after, edge.target ≠ edge'.target) : Sparse (before ++ after) where
  nodup := by
    refine List.nodup_append.mpr ⟨sparse.nodup, sparse'.nodup, ?_⟩
    rintro edge member edge' member' rfl
    exact sources edge member edge member' rfl
  outlets state := by
    rcases filter_append_of_apart sources state with same | same
    · rw [leaving, same]
      exact sparse.outlets state
    · rw [leaving, same]
      exact sparse'.outlets state
  entering_le state := by
    rcases filter_append_of_apart targets state with same | same
    · rw [entering, same]
      exact sparse.entering_le state
    · rw [entering, same]
      exact sparse'.entering_le state

theorem single (edge : Transition) : Sparse [edge] where
  nodup := List.nodup_singleton edge
  outlets state := by
    by_cases here : edge.source = state
    · simpa [leaving, here] using Outlets.single edge.symbol
    · simp [leaving, here]
  entering_le state := Nat.le_trans (List.length_filter_le _ [edge]) (Nat.le_succ 1)

theorem alternationEdges {whole left right : Nfa.Fragment} (starts : left.start ≠ right.start)
    (accepts : left.accept ≠ right.accept) (notLeft : whole.start ≠ left.accept) (notRight : whole.start ≠ right.accept)
    (newLeft : left.start ≠ whole.accept) (newRight : right.start ≠ whole.accept) :
    Sparse (whole.alternationEdges left right) where
  nodup := by simp [Nfa.Fragment.alternationEdges, *]
  outlets state := by
    by_cases atStart : whole.start = state
    · subst atStart
      simp [leaving, Nfa.Fragment.alternationEdges, Outlets, notLeft.symm, notRight.symm]
    · by_cases atLeft : left.accept = state
      · subst atLeft
        simp [leaving, Nfa.Fragment.alternationEdges, Outlets, atStart, accepts.symm]
      · by_cases atRight : right.accept = state
        · simp [leaving, Nfa.Fragment.alternationEdges, Outlets, *]
        · simp [leaving, Nfa.Fragment.alternationEdges, *]
  entering_le state := by
    by_cases atAccept : whole.accept = state
    · subst atAccept
      simp [entering, Nfa.Fragment.alternationEdges, *]
    · by_cases atLeft : left.start = state
      · subst atLeft
        simp [entering, Nfa.Fragment.alternationEdges, atAccept, starts.symm]
      · by_cases atRight : right.start = state
        · simp [entering, Nfa.Fragment.alternationEdges, *]
        · simp [entering, Nfa.Fragment.alternationEdges, *]

theorem starEdges {whole inner : Nfa.Fragment} (old : whole.start ≠ inner.accept) (new : inner.start ≠ whole.accept) :
    Sparse (whole.starEdges inner) where
  nodup := by simp [Nfa.Fragment.starEdges, *]
  outlets state := by
    by_cases atStart : whole.start = state
    · subst atStart
      simp [leaving, Nfa.Fragment.starEdges, Outlets, old.symm]
    · by_cases atAccept : inner.accept = state
      · simp [leaving, Nfa.Fragment.starEdges, Outlets, *]
      · simp [leaving, Nfa.Fragment.starEdges, *]
  entering_le state := by
    by_cases atStart : inner.start = state
    · subst atStart
      simp [entering, Nfa.Fragment.starEdges, new.symm]
    · by_cases atAccept : whole.accept = state
      · simp [entering, Nfa.Fragment.starEdges, *]
      · simp [entering, Nfa.Fragment.starEdges, *]

/-! ### Operators -/

variable {first second : List Transition} {low middle high : Nat} {f g : Nfa.Fragment}

theorem beside (left : Isolated first low middle f) (right : Isolated second middle high g) (sparse : Sparse first)
    (sparse' : Sparse second) : Sparse (first ++ second) := by
  apply sparse.append sparse'
  · intro edge member edge' member'
    exact (left.source_within _ member).ne (right.source_within _ member') (.inl (Nat.le_refl _))
  · intro edge member edge' member'
    exact (left.target_within _ member).ne (right.target_within _ member') (.inl (Nat.le_refl _))

theorem concat (left : Isolated first low middle f) (right : Isolated second middle high g) (sparse : Sparse first)
    (sparse' : Sparse second) : Sparse (first ++ second ++ f.concatEdges g) := by
  apply (beside left right sparse sparse').append (.single _)
  · intro edge member edge' added
    rw [List.mem_singleton.mp added]
    exact (left.beside_ne right member).1.1
  · intro edge member edge' added
    rw [List.mem_singleton.mp added]
    exact (left.beside_ne right member).2.2

theorem alternation (left : Isolated first low middle f) (right : Isolated second middle high g)
    (room : high + 2 ≤ UInt32.size) (sparse : Sparse first) (sparse' : Sparse second) :
    Sparse (first ++ second ++ (between high).alternationEdges f g) := by
  have start := between_start_within room
  have accept := between_accept_within room
  have higher := right.start_within.low_lt_high
  have added : Sparse ((between high).alternationEdges f g) := by
    apply alternationEdges
    · exact left.start_within.ne right.start_within (.inl (Nat.le_refl _))
    · exact left.accept_within.ne right.accept_within (.inl (Nat.le_refl _))
    · exact start.ne left.accept_within (.inr (by omega))
    · exact start.ne right.accept_within (.inr (Nat.le_refl _))
    · exact left.start_within.ne accept (.inl (by omega))
    · exact right.start_within.ne accept (.inl (by omega))
  apply (beside left right sparse sparse').append added
  all_goals
    intro edge member edge' added
    obtain ⟨source, target⟩ := left.beside_within right member
    obtain ⟨⟨notLeft, notRight⟩, notLeft', notRight'⟩ := left.beside_ne right member
    simp only [Nfa.Fragment.alternationEdges, List.mem_cons, List.not_mem_nil, or_false] at added
    rcases added with rfl | rfl | rfl | rfl
  · exact source.ne start (.inl (Nat.le_refl _))
  · exact source.ne start (.inl (Nat.le_refl _))
  · exact notLeft
  · exact notRight
  · exact notLeft'
  · exact notRight'
  · exact target.ne accept (.inl (by omega))
  · exact target.ne accept (.inl (by omega))

theorem star (inner : Isolated first low high f) (room : high + 2 ≤ UInt32.size) (sparse : Sparse first) :
    Sparse (first ++ (between high).starEdges f) := by
  have start := between_start_within room
  have accept := between_accept_within room
  have added : Sparse ((between high).starEdges f) :=
    starEdges (start.ne inner.accept_within (.inr (Nat.le_refl _))) (inner.start_within.ne accept (.inl (by omega)))
  apply sparse.append added
  all_goals
    intro edge member edge' added
    simp only [Nfa.Fragment.starEdges, List.mem_cons, List.not_mem_nil, or_false] at added
    rcases added with rfl | rfl | rfl | rfl
  · exact (inner.source_within _ member).ne start (.inl (Nat.le_refl _))
  · exact (inner.source_within _ member).ne start (.inl (Nat.le_refl _))
  · exact inner.source_ne _ member
  · exact inner.source_ne _ member
  · exact inner.target_ne _ member
  · exact (inner.target_within _ member).ne accept (.inl (by omega))
  · exact inner.target_ne _ member
  · exact (inner.target_within _ member).ne accept (.inl (by omega))

end Sparse

theorem Tree.sparse (t : Tree) {base : Nat} (room : base + t.stateCount ≤ UInt32.size) : Sparse (t.edges base) := by
  induction t generalizing base with
  | literal char => exact .single _
  | concat first second ihFirst ihSecond =>
    rw [stateCount, ← Nat.add_assoc] at room
    have roomFirst : base + first.stateCount ≤ UInt32.size := by omega
    exact .concat (first.isolated roomFirst) (second.isolated room) (ihFirst roomFirst) (ihSecond room)
  | alternation left right ihLeft ihRight =>
    rw [stateCount, ← Nat.add_assoc, ← Nat.add_assoc] at room
    have roomLeft : base + left.stateCount ≤ UInt32.size := by omega
    have roomRight : base + left.stateCount + right.stateCount ≤ UInt32.size := by omega
    exact .alternation (left.isolated roomLeft) (right.isolated roomRight) room (ihLeft roomLeft) (ihRight roomRight)
  | star inner ih =>
    rw [stateCount, ← Nat.add_assoc] at room
    have roomInner : base + inner.stateCount ≤ UInt32.size := by omega
    exact .star (inner.isolated roomInner) room (ih roomInner)

/-! ## Counting states and transitions -/

/-- How many lexemes are literals. -/
def literals (lexemes : List Lexeme) : Nat :=
  lexemes.countP (·.token.literal?.isSome)

/-- How many lexemes have the token. -/
def occurrences (token : Token) (lexemes : List Lexeme) : Nat :=
  lexemes.countP (·.token = token)

/-- How many lexemes of a sequence take states of their own. -/
def allocations (lexemes : List Lexeme) : Nat :=
  literals lexemes + occurrences .alternation lexemes + occurrences .star lexemes

/-- How many transitions the lexemes of a sequence state. -/
def connections (lexemes : List Lexeme) : Nat :=
  literals lexemes + occurrences .concat lexemes + 4 * occurrences .alternation lexemes + 4 * occurrences .star lexemes

section

variable (first second : List Lexeme)

@[simp] theorem literals_append : literals (first ++ second) = literals first + literals second :=
  List.countP_append

@[simp] theorem occurrences_append (token : Token) :
    occurrences token (first ++ second) = occurrences token first + occurrences token second :=
  List.countP_append

@[simp] theorem allocations_append : allocations (first ++ second) = allocations first + allocations second := by
  simp only [allocations, literals_append, occurrences_append]
  omega

@[simp] theorem connections_append : connections (first ++ second) = connections first + connections second := by
  simp only [connections, literals_append, occurrences_append]
  omega

end

namespace PlacedTree

theorem stateCount_tree (t : PlacedTree) : t.tree.stateCount = 2 * allocations t.postorder := by
  induction t with
  | literal => rfl
  | concat position _ _ ihFirst ihSecond =>
    have own : allocations [⟨.concat, position⟩] = 0 := rfl
    simp only [tree, Tree.stateCount, postorder, allocations_append, ihFirst, ihSecond, own]
    omega
  | alternation position _ _ ihLeft ihRight =>
    have own : allocations [⟨.alternation, position⟩] = 1 := rfl
    simp only [tree, Tree.stateCount, postorder, allocations_append, ihLeft, ihRight, own]
    omega
  | star position _ ih =>
    have own : allocations [⟨.star, position⟩] = 1 := rfl
    simp only [tree, Tree.stateCount, postorder, allocations_append, ih, own]
    omega

theorem length_edges_tree (t : PlacedTree) (base : Nat) : (t.tree.edges base).length = connections t.postorder := by
  induction t generalizing base with
  | literal => rfl
  | concat position _ _ ihFirst ihSecond =>
    have own (f g : Nfa.Fragment) : (f.concatEdges g).length = connections [⟨.concat, position⟩] := rfl
    simp only [tree, Tree.edges, postorder, List.length_append, connections_append, ihFirst, ihSecond, own]
  | alternation position _ _ ihLeft ihRight =>
    have own (whole f g : Nfa.Fragment) : (whole.alternationEdges f g).length = connections [⟨.alternation, position⟩] :=
      rfl
    simp only [tree, Tree.edges, postorder, List.length_append, connections_append, ihLeft, ihRight, own]
  | star position _ ih =>
    have own (whole f : Nfa.Fragment) : (whole.starEdges f).length = connections [⟨.star, position⟩] := rfl
    simp only [tree, Tree.edges, postorder, List.length_append, connections_append, ih, own]

end PlacedTree

namespace Nfa.Assembly

theorem step_numStates {assembly after : Assembly} {lexeme : Lexeme} (passed : assembly.step lexeme = .ok after) :
    after.builder.numStates = assembly.builder.numStates + .ofNat (2 * allocations [lexeme]) := by
  obtain ⟨token, position⟩ := lexeme
  rcases step_cases passed with ⟨char, rfl, rfl⟩ | ⟨second, first, rest, rfl, _, rfl⟩ |
    ⟨right, left, rest, rfl, _, rfl⟩ | ⟨inner, rest, rfl, _, rfl⟩
  · exact UInt32.add_assoc _ 1 1
  · exact (UInt32.add_zero _).symm
  · exact UInt32.add_assoc _ 1 1
  · exact UInt32.add_assoc _ 1 1

theorem foldlM_numStates {lexemes : List Lexeme} {assembly after : Assembly}
    (passed : lexemes.foldlM step assembly = .ok after) :
    after.builder.numStates = assembly.builder.numStates + .ofNat (2 * allocations lexemes) := by
  induction lexemes generalizing assembly with
  | nil =>
    cases passed
    exact (UInt32.add_zero _).symm
  | cons lexeme rest ih =>
    obtain ⟨between, first, others⟩ := foldlM_cons_eq_ok_iff.mp passed
    rw [ih others, step_numStates first, UInt32.add_assoc, ← UInt32.ofNat_add, ← Nat.mul_add, ← allocations_append,
      List.singleton_append]

/-- The number of states does not overflow as long as fewer than `2 ^ 31` lexemes
    take states. -/
theorem toNat_numStates {lexemes : List Lexeme} {after : Assembly} (passed : lexemes.foldlM step {} = .ok after)
    (few : allocations lexemes < 2 ^ 31) : after.builder.numStates.toNat = 2 * allocations lexemes := by
  rw [foldlM_numStates passed, UInt32.zero_add]
  exact UInt32.toNat_ofNat_of_lt' (by rw [UInt32.size]; omega)

end Nfa.Assembly

/-! ## Counting characters -/

theorem allocations_joinAfter (previous : Option Token) (lexemes : List Lexeme) :
    allocations (Lexeme.joinAfter previous lexemes) = allocations lexemes := by
  induction lexemes generalizing previous with
  | nil => rfl
  | cons lexeme rest ih =>
    have kept : allocations (lexeme :: Lexeme.joinAfter (some lexeme.token) rest) = allocations (lexeme :: rest) := by
      rw [← List.singleton_append, allocations_append, ih, ← allocations_append, List.singleton_append]
    have stated : allocations [⟨.concat, lexeme.position⟩] = 0 := rfl
    rw [Lexeme.joinAfter]
    split
    · rw [← List.singleton_append, allocations_append, stated, Nat.zero_add, kept]
    · exact kept

theorem allocations_le_length (lexemes : List Lexeme) : allocations lexemes ≤ lexemes.length := by
  induction lexemes with
  | nil => exact Nat.le_refl 0
  | cons lexeme rest ih =>
    have one : allocations [lexeme] ≤ 1 := by
      obtain ⟨token, position⟩ := lexeme
      cases token <;> simp [allocations, literals, occurrences, Token.literal?]
    rw [← List.singleton_append, allocations_append, List.length_append]
    exact Nat.add_le_add one ih

theorem allocations_mono {fewer more : List Lexeme} (among : fewer.Subperm more) :
    allocations fewer ≤ allocations more :=
  Nat.add_le_add (Nat.add_le_add (among.countP_le _) (among.countP_le _)) (among.countP_le _)

theorem allocations_postfix_le {expression : String} {postfixed : List Lexeme}
    (reordered : toPostfix (expand expression) = .ok postfixed) : allocations postfixed ≤ expression.length := by
  have among : postfixed.Subperm (expand expression) :=
    (toPostfix_perm reordered).subperm.trans List.filter_sublist.subperm
  have length : (Lexeme.ofChars 0 expression.toList).length = expression.length := by
    rw [← List.length_map (·.token.toChar), Lexeme.map_toChar_ofChars, String.length_toList]
  calc allocations postfixed
    _ ≤ allocations (expand expression) := allocations_mono among
    _ = allocations (Lexeme.ofChars 0 expression.toList) := allocations_joinAfter none _
    _ ≤ (Lexeme.ofChars 0 expression.toList).length := allocations_le_length _
    _ = expression.length := length

/-! ## The automaton as a graph -/

/-- What an automaton looks like as a graph: its transitions join its states, the
    start is not entered again and the accepting state not left, every other state
    is left by a character or by one or two moves that read nothing, and no state
    is entered by more than two transitions. -/
structure Nfa.Wired (nfa : Nfa) : Prop where
  start_lt : nfa.start < nfa.numStates
  accept_lt : nfa.accept < nfa.numStates
  source_lt : ∀ edge, edge ∈ nfa.transitions → edge.source < nfa.numStates
  target_lt : ∀ edge, edge ∈ nfa.transitions → edge.target < nfa.numStates
  target_ne : ∀ edge, edge ∈ nfa.transitions → edge.target ≠ nfa.start
  source_ne : ∀ edge, edge ∈ nfa.transitions → edge.source ≠ nfa.accept
  outlets : ∀ state, state < nfa.numStates → state ≠ nfa.accept →
    Outlets ((leaving nfa.transitions.moves state).map (·.symbol))
  entering_le : ∀ state, (entering nfa.transitions.moves state).length ≤ 2

theorem Path.exists_source {table : TransitionTable} {source target : StateId} {word : List Char}
    (path : Path table source word target) (goes : source ≠ target) : ∃ edge, edge ∈ table ∧ edge.source = source := by
  cases path with
  | refl => exact absurd rfl goes
  | epsilon edge _ | literal edge _ => exact ⟨_, edge, rfl⟩

theorem Tree.wired_nfa (t : Tree) (few : t.stateCount < UInt32.size) : t.nfa.Wired := by
  have isolated : Isolated (t.edges 0) 0 (0 + t.stateCount) (t.fragment 0) := t.isolated (by omega)
  have sparse : Sparse t.nfa.transitions.moves :=
    (t.sparse (by omega)).perm (TransitionTable.moves_ofList_perm (t.sparse (by omega)).nodup)
  have allocated {state : StateId} : Within 0 (0 + t.stateCount) state → state < t.nfa.numStates :=
    (t.lt_numStates_nfa_iff few).mpr
  refine {
    start_lt := allocated isolated.start_within
    accept_lt := allocated isolated.accept_within
    source_lt := fun edge member => allocated (isolated.source_within edge (TransitionTable.mem_ofList.mp member))
    target_lt := fun edge member => allocated (isolated.target_within edge (TransitionTable.mem_ofList.mp member))
    target_ne := fun edge member => isolated.target_ne edge (TransitionTable.mem_ofList.mp member)
    source_ne := fun edge member => isolated.source_ne edge (TransitionTable.mem_ofList.mp member)
    outlets := fun state inside notAccept => (sparse.outlets state).resolve_left fun none => ?_
    entering_le := sparse.entering_le }
  -- The state leads on to the accepting state.
  obtain ⟨word, path⟩ := (t.trim_nfa few state inside).to_accept
  obtain ⟨edge, member, leaves⟩ := path.exists_source notAccept
  rw [leaving, List.filter_eq_nil_iff] at none
  exact none edge (TransitionTable.mem_moves.mpr member) (decide_eq_true leaves)

/-- What is assembled of any postfix sequence with fewer than `2 ^ 31` lexemes that
    take states: exactly two states for each of them, exactly the transitions that
    its lexemes state, and few of these at each state. Along the assembly of a text
    with fewer than `2 ^ 31` characters the number of states never overflows,
    whether or not the assembly succeeds. -/
theorem Nfa.ofPostfix_wiring :
    (∀ lexemes nfa, ofPostfix lexemes = .ok nfa → allocations lexemes < 2 ^ 31 →
      nfa.numStates.toNat = 2 * allocations lexemes ∧ nfa.transitions.moves.length = connections lexemes ∧ nfa.Wired) ∧
    (∀ expression postfixed, expression.length < 2 ^ 31 → toPostfix (expand expression) = .ok postfixed →
      ∀ before assembly, before <+: postfixed → before.foldlM Assembly.step {} = .ok assembly →
        assembly.builder.numStates.toNat = 2 * allocations before ∧ allocations before < 2 ^ 31) := by
  constructor
  · intro lexemes nfa assembled few
    obtain ⟨t, rfl⟩ := exists_postorder_of_ofPostfix assembled
    rw [ofPostfix_postorder t.tree t.map_token_postorder] at assembled
    obtain rfl := Except.ok.inj assembled
    have count := t.stateCount_tree
    have room : t.tree.stateCount < UInt32.size := by
      rw [UInt32.size]
      omega
    refine ⟨?_, ?_, t.tree.wired_nfa room⟩
    · rw [← count]
      exact UInt32.toNat_ofNat_of_lt' room
    · rw [← t.length_edges_tree 0]
      exact (TransitionTable.moves_ofList_perm (t.tree.sparse (by omega)).nodup).length_eq
  · intro expression postfixed short reordered before assembly starts passed
    obtain ⟨after, rfl⟩ := starts
    -- What is read first takes no more states than the whole.
    have most := allocations_postfix_le reordered
    rw [allocations_append] at most
    have few : allocations before < 2 ^ 31 := by omega
    exact ⟨Assembly.toNat_numStates passed few, few⟩

/-- The choice of two characters, repeated and followed by a third one. -/
theorem Nfa.ofPostfix_wiring_choices :
    ∃ nfa, ofPostfix [⟨.literal 'a', 1⟩, ⟨.literal 'b', 3⟩, ⟨.alternation, 2⟩, ⟨.star, 5⟩, ⟨.literal 'c', 6⟩,
        ⟨.concat, 6⟩] = .ok nfa ∧
      nfa.numStates.toNat = 10 ∧ nfa.transitions.moves.length = 12 ∧ nfa.Wired ∧
      ∀ before assembly, before <+: [⟨.literal 'a', 1⟩, ⟨.literal 'b', 3⟩, ⟨.alternation, 2⟩, ⟨.star, 5⟩,
          ⟨.literal 'c', 6⟩, ⟨.concat, 6⟩] → before.foldlM Assembly.step {} = .ok assembly →
        assembly.builder.numStates.toNat = 2 * allocations before := by
  have assembled := ofPostfix_postorder (.concat (.star (.alternation (.literal 'a') (.literal 'b'))) (.literal 'c'))
    (rfl : [⟨.literal 'a', 1⟩, ⟨.literal 'b', 3⟩, ⟨.alternation, 2⟩, ⟨.star, 5⟩, ⟨.literal 'c', 6⟩,
      (⟨.concat, 6⟩ : Lexeme)].map (·.token) = _)
  obtain ⟨states, transitions, wired⟩ := ofPostfix_wiring.1 _ _ assembled (by decide)
  refine ⟨_, assembled, states, transitions, wired, fun before assembly starts passed => ?_⟩
  exact (ofPostfix_wiring.2 "(a|b)*c" _ (by decide) (by rfl) before assembly starts passed).1

end RegexCompiler
