import RegexCompiler.Proofs.Layout

/-!
The fragments of an expression have their states to themselves (`Isolated`). So a path through an operator
falls into paths through its operands, whose words are those of the expression (`Tree.reads`).
-/

namespace RegexCompiler

/-! ## Paths through a part of a table -/

namespace Path

theorem widen {inner : List Transition} (outer : List Transition) (sub : inner ⊆ outer) {source target : StateId} {word : List Char}
    (path : Path (.ofList inner) source word target) : Path (.ofList outer) source word target := by
  have kept (transition : Transition) (member : transition ∈ TransitionTable.ofList inner) :
      transition ∈ TransitionTable.ofList outer :=
    TransitionTable.mem_ofList.mpr (sub (TransitionTable.mem_ofList.mp member))
  induction path with
  | refl state => exact .refl state
  | epsilon edge _ ih => exact .epsilon (kept _ edge) ih
  | literal edge _ ih => exact .literal (kept _ edge) ih

theorem nil_of_sink {table : TransitionTable} {source target : StateId} {word : List Char}
    (path : Path table source word target) (sink : ∀ transition, transition ∈ table → transition.source ≠ source) :
    word = [] ∧ source = target := by
  cases path with
  | refl => exact ⟨rfl, rfl⟩
  | epsilon edge _ => exact absurd rfl (sink _ edge)
  | literal edge _ => exact absurd rfl (sink _ edge)

/-- A path from a state that is left without reading only. -/
theorem first_epsilon {table : TransitionTable} {source target : StateId} {word : List Char}
    (path : Path table source word target) (leads : StateId → Prop) (goes : source ≠ target)
    (leaves : ∀ transition, transition ∈ table → transition.source = source →
      transition.symbol = .epsilon ∧ leads transition.target) :
    ∃ middle, leads middle ∧ Path table middle word target := by
  cases path with
  | refl => exact absurd rfl goes
  | epsilon edge rest => exact ⟨_, (leaves _ edge rfl).2, rest⟩
  | literal edge rest => exact absurd (leaves _ edge rfl).1 (by simp)

/-- A part of a table: transitions from the states inside stay inside, unless
    they leave from the state `exit`, without reading. -/
def Part (outer inner : TransitionTable) (inside : StateId → Prop) (exit : StateId) (leads : StateId → Prop) : Prop :=
  ∀ transition, transition ∈ outer → inside transition.source →
    (transition ∈ inner ∧ inside transition.target) ∨
      (transition.source = exit ∧ transition.symbol = .epsilon ∧ leads transition.target)

/-- A path does not leave a part of a table that no transition leaves. -/
theorem confined {outer inner : TransitionTable} {inside : StateId → Prop} {exit : StateId}
    (part : Part outer inner inside exit (fun _ => False))
    {source target : StateId} {word : List Char} (path : Path outer source word target) (begins : inside source) :
    Path inner source word target := by
  induction path with
  | refl state => exact .refl state
  | epsilon edge _ ih =>
    obtain ⟨kept, next⟩ := (part _ edge begins).resolve_right (fun leaves => leaves.2.2)
    exact .epsilon kept (ih next)
  | literal edge _ ih =>
    obtain ⟨kept, next⟩ := (part _ edge begins).resolve_right (fun leaves => leaves.2.2)
    exact .literal kept (ih next)

/-- A path out of a part of a table goes through the part to its exit. What
    follows from there may come back into the part. -/
theorem exits {outer inner : TransitionTable} {inside leads : StateId → Prop} {exit target : StateId}
    (part : Part outer inner inside exit leads) (follows : List Char → Prop)
    (continues : ∀ state word, leads state → Path outer state word target →
      (inside state → ∃ u v, word = u ++ v ∧ Path inner state u exit ∧ follows v) → follows word)
    (ends : ¬ inside target)
    {source : StateId} {word : List Char} (path : Path outer source word target) (begins : inside source) :
    ∃ u v, word = u ++ v ∧ Path inner source u exit ∧ follows v := by
  induction path with
  | refl state => exact absurd begins ends
  | epsilon edge rest ih =>
    rcases part _ edge begins with ⟨kept, next⟩ | ⟨rfl, _, leaves⟩
    · obtain ⟨u, v, rfl, path, after⟩ := ih continues ends next
      exact ⟨u, v, rfl, .epsilon kept path, after⟩
    · exact ⟨[], _, rfl, .refl _, continues _ _ leaves rest (ih continues ends)⟩
  | literal edge rest ih =>
    rcases part _ edge begins with ⟨kept, next⟩ | ⟨_, reads, _⟩
    · obtain ⟨u, v, rfl, path, after⟩ := ih continues ends next
      exact ⟨_ :: u, v, rfl, .literal kept path, after⟩
    · cases reads

end Path

/-! ## Fragments with their states to themselves -/

/-- The number of the state is `low` or more and less than `high`. -/
def Within (low high : Nat) (state : StateId) : Prop :=
  low ≤ state.toNat ∧ state.toNat < high

namespace Within

theorem ofNat {number : Nat} (room : number < UInt32.size) : Within number (number + 1) (.ofNat number) := by
  rw [Within, UInt32.toNat_ofNat_of_lt' room]
  omega

theorem mono {low high low' high' : Nat} {state : StateId} (inside : Within low high state)
    (lower : low' ≤ low) (higher : high ≤ high') : Within low' high' state :=
  ⟨Nat.le_trans lower inside.1, Nat.lt_of_lt_of_le inside.2 higher⟩

theorem low_lt_high {low high : Nat} {state : StateId} (inside : Within low high state) : low < high :=
  Nat.lt_of_le_of_lt inside.1 inside.2

theorem disjoint {low high low' high' : Nat} {state : StateId} (inside : Within low high state)
    (apart : high ≤ low' ∨ high' ≤ low) : ¬ Within low' high' state := by
  intro inside'
  obtain ⟨lower, higher⟩ := inside
  obtain ⟨lower', higher'⟩ := inside'
  omega

theorem ne {low high low' high' : Nat} {left right : StateId} (inside : Within low high left)
    (inside' : Within low' high' right) (apart : high ≤ low' ∨ high' ≤ low) : left ≠ right := by
  rintro rfl
  exact inside.disjoint apart inside'

end Within

/-- The transitions join states of one range, none leads into the start of the
    fragment and none out of its accepting state. -/
structure Isolated (transitions : List Transition) (low high : Nat) (fragment : Nfa.Fragment) : Prop where
  start_within : Within low high fragment.start
  accept_within : Within low high fragment.accept
  source_within : ∀ transition ∈ transitions, Within low high transition.source
  target_within : ∀ transition ∈ transitions, Within low high transition.target
  source_ne : ∀ transition ∈ transitions, transition.source ≠ fragment.accept
  target_ne : ∀ transition ∈ transitions, transition.target ≠ fragment.start

namespace Nfa.Fragment

theorem between_start_within {number : Nat} (room : number + 2 ≤ UInt32.size) :
    Within number (number + 1) (between number).start :=
  .ofNat (by omega)

theorem between_accept_within {number : Nat} (room : number + 2 ≤ UInt32.size) :
    Within (number + 1) (number + 2) (between number).accept :=
  .ofNat (by omega)

end Nfa.Fragment

namespace Isolated
open Nfa.Fragment

theorem literal {number : Nat} (room : number + 2 ≤ UInt32.size) (symbol : Symbol) :
    Isolated [⟨(between number).start, symbol, (between number).accept⟩] number (number + 2) (between number) := by
  have start := between_start_within room
  have accept := between_accept_within room
  have differ := start.ne accept (.inl (by omega))
  constructor
  · exact start.mono (by omega) (by omega)
  · exact accept.mono (by omega) (by omega)
  all_goals
    intro transition member
    rw [List.mem_singleton.mp member]
  · exact start.mono (by omega) (by omega)
  · exact accept.mono (by omega) (by omega)
  · exact differ
  · exact differ.symm

variable {first second : List Transition} {low middle high : Nat} {f g : Nfa.Fragment}

theorem concat (left : Isolated first low middle f) (right : Isolated second middle high g) :
    Isolated (first ++ second ++ f.concatEdges g) low high ⟨f.start, g.accept⟩ := by
  have lower := left.start_within.low_lt_high
  have higher := right.start_within.low_lt_high
  constructor
  · exact left.start_within.mono (by omega) (by omega)
  · exact right.accept_within.mono (by omega) (by omega)
  all_goals
    intro transition member
    rw [List.mem_append, List.mem_append, concatEdges, List.mem_singleton] at member
    rcases member with (inFirst | inSecond) | rfl
  · exact (left.source_within _ inFirst).mono (by omega) (by omega)
  · exact (right.source_within _ inSecond).mono (by omega) (by omega)
  · exact left.accept_within.mono (by omega) (by omega)
  · exact (left.target_within _ inFirst).mono (by omega) (by omega)
  · exact (right.target_within _ inSecond).mono (by omega) (by omega)
  · exact right.start_within.mono (by omega) (by omega)
  · exact (left.source_within _ inFirst).ne right.accept_within (.inl (by omega))
  · exact right.source_ne _ inSecond
  · exact left.accept_within.ne right.accept_within (.inl (by omega))
  · exact left.target_ne _ inFirst
  · exact (right.target_within _ inSecond).ne left.start_within (.inr (by omega))
  · exact right.start_within.ne left.start_within (.inr (by omega))

theorem alternation (left : Isolated first low middle f) (right : Isolated second middle high g)
    (room : high + 2 ≤ UInt32.size) :
    Isolated (first ++ second ++ (between high).alternationEdges f g) low (high + 2) (between high) := by
  have lower := left.start_within.low_lt_high
  have higher := right.start_within.low_lt_high
  have start := between_start_within room
  have accept := between_accept_within room
  constructor
  · exact start.mono (by omega) (by omega)
  · exact accept.mono (by omega) (by omega)
  all_goals
    intro transition member
    simp only [List.mem_append, alternationEdges, List.mem_cons, List.not_mem_nil, or_false] at member
    rcases member with (inFirst | inSecond) | rfl | rfl | rfl | rfl
  · exact (left.source_within _ inFirst).mono (by omega) (by omega)
  · exact (right.source_within _ inSecond).mono (by omega) (by omega)
  · exact start.mono (by omega) (by omega)
  · exact start.mono (by omega) (by omega)
  · exact left.accept_within.mono (by omega) (by omega)
  · exact right.accept_within.mono (by omega) (by omega)
  · exact (left.target_within _ inFirst).mono (by omega) (by omega)
  · exact (right.target_within _ inSecond).mono (by omega) (by omega)
  · exact left.start_within.mono (by omega) (by omega)
  · exact right.start_within.mono (by omega) (by omega)
  · exact accept.mono (by omega) (by omega)
  · exact accept.mono (by omega) (by omega)
  · exact (left.source_within _ inFirst).ne accept (.inl (by omega))
  · exact (right.source_within _ inSecond).ne accept (.inl (by omega))
  · exact start.ne accept (.inl (by omega))
  · exact start.ne accept (.inl (by omega))
  · exact left.accept_within.ne accept (.inl (by omega))
  · exact right.accept_within.ne accept (.inl (by omega))
  · exact (left.target_within _ inFirst).ne start (.inl (by omega))
  · exact (right.target_within _ inSecond).ne start (.inl (by omega))
  · exact left.start_within.ne start (.inl (by omega))
  · exact right.start_within.ne start (.inl (by omega))
  · exact accept.ne start (.inr (by omega))
  · exact accept.ne start (.inr (by omega))

theorem star (inner : Isolated first low high f) (room : high + 2 ≤ UInt32.size) :
    Isolated (first ++ (between high).starEdges f) low (high + 2) (between high) := by
  have lower := inner.start_within.low_lt_high
  have start := between_start_within room
  have accept := between_accept_within room
  constructor
  · exact start.mono (by omega) (by omega)
  · exact accept.mono (by omega) (by omega)
  all_goals
    intro transition member
    simp only [List.mem_append, starEdges, List.mem_cons, List.not_mem_nil, or_false] at member
    rcases member with inFirst | rfl | rfl | rfl | rfl
  · exact (inner.source_within _ inFirst).mono (by omega) (by omega)
  · exact start.mono (by omega) (by omega)
  · exact start.mono (by omega) (by omega)
  · exact inner.accept_within.mono (by omega) (by omega)
  · exact inner.accept_within.mono (by omega) (by omega)
  · exact (inner.target_within _ inFirst).mono (by omega) (by omega)
  · exact inner.start_within.mono (by omega) (by omega)
  · exact accept.mono (by omega) (by omega)
  · exact inner.start_within.mono (by omega) (by omega)
  · exact accept.mono (by omega) (by omega)
  · exact (inner.source_within _ inFirst).ne accept (.inl (by omega))
  · exact start.ne accept (.inl (by omega))
  · exact start.ne accept (.inl (by omega))
  · exact inner.accept_within.ne accept (.inl (by omega))
  · exact inner.accept_within.ne accept (.inl (by omega))
  · exact (inner.target_within _ inFirst).ne start (.inl (by omega))
  · exact inner.start_within.ne start (.inl (by omega))
  · exact accept.ne start (.inr (by omega))
  · exact inner.start_within.ne start (.inl (by omega))
  · exact accept.ne start (.inr (by omega))

end Isolated

theorem Tree.isolated (t : Tree) {base : Nat} (room : base + t.stateCount ≤ UInt32.size) :
    Isolated (t.edges base) base (base + t.stateCount) (t.fragment base) := by
  induction t generalizing base with
  | literal char => exact Isolated.literal room (.literal char)
  | concat first second ihFirst ihSecond =>
    rw [stateCount, ← Nat.add_assoc] at room ⊢
    exact (ihFirst (Nat.le_trans (Nat.le_add_right _ _) room)).concat (ihSecond room)
  | alternation left right ihLeft ihRight =>
    rw [stateCount, ← Nat.add_assoc, ← Nat.add_assoc] at room ⊢
    exact (ihLeft (by omega)).alternation (ihRight (by omega)) room
  | star inner ih =>
    rw [stateCount, ← Nat.add_assoc] at room ⊢
    exact (ih (by omega)).star room

/-! ## The operands of an operator as parts of its table -/

namespace Isolated
open Nfa.Fragment

variable {first second : List Transition} {low middle high : Nat} {f g : Nfa.Fragment}

/-- A fragment is a part of every table that adds no transitions from its states
    but some without reading from its accepting state. -/
theorem part {leads : StateId → Prop} (isolated : Isolated first low high f) {outer : List Transition}
    (others : ∀ transition ∈ outer, transition ∈ first ∨ ¬ Within low high transition.source ∨
      (transition.source = f.accept ∧ transition.symbol = .epsilon ∧ leads transition.target)) :
    Path.Part (.ofList outer) (.ofList first) (Within low high) f.accept leads := by
  intro transition member begins
  rcases others transition (TransitionTable.mem_ofList.mp member) with kept | outside | leaves
  · exact .inl ⟨TransitionTable.mem_ofList.mpr kept, isolated.target_within transition kept⟩
  · exact absurd begins outside
  · exact .inr leaves

theorem sink (isolated : Isolated first low high f) :
    ∀ transition, transition ∈ TransitionTable.ofList first → transition.source ≠ f.accept :=
  fun transition member => isolated.source_ne transition (TransitionTable.mem_ofList.mp member)

theorem concat_first (left : Isolated first low middle f) (right : Isolated second middle high g) :
    Path.Part (.ofList (first ++ second ++ f.concatEdges g)) (.ofList first) (Within low middle) f.accept
      (· = g.start) := by
  refine left.part fun transition member => ?_
  rw [List.mem_append, List.mem_append, concatEdges, List.mem_singleton] at member
  rcases member with (inFirst | inSecond) | rfl
  · exact .inl inFirst
  · exact .inr (.inl ((right.source_within _ inSecond).disjoint (.inr (Nat.le_refl _))))
  · exact .inr (.inr ⟨rfl, rfl, rfl⟩)

theorem concat_second (left : Isolated first low middle f) (right : Isolated second middle high g) :
    Path.Part (.ofList (first ++ second ++ f.concatEdges g)) (.ofList second) (Within middle high) g.accept
      (fun _ => False) := by
  refine right.part fun transition member => ?_
  rw [List.mem_append, List.mem_append, concatEdges, List.mem_singleton] at member
  rcases member with (inFirst | inSecond) | rfl
  · exact .inr (.inl ((left.source_within _ inFirst).disjoint (.inl (Nat.le_refl _))))
  · exact .inl inSecond
  · exact .inr (.inl (left.accept_within.disjoint (.inl (Nat.le_refl _))))

theorem alternation_left (left : Isolated first low middle f) (right : Isolated second middle high g)
    (room : high + 2 ≤ UInt32.size) :
    Path.Part (.ofList (first ++ second ++ (between high).alternationEdges f g)) (.ofList first) (Within low middle)
      f.accept (· = (between high).accept) := by
  have higher := right.start_within.low_lt_high
  have start := between_start_within room
  refine left.part fun transition member => ?_
  simp only [List.mem_append, alternationEdges, List.mem_cons, List.not_mem_nil, or_false] at member
  rcases member with (inFirst | inSecond) | rfl | rfl | rfl | rfl
  · exact .inl inFirst
  · exact .inr (.inl ((right.source_within _ inSecond).disjoint (.inr (by omega))))
  · exact .inr (.inl (start.disjoint (.inr (by omega))))
  · exact .inr (.inl (start.disjoint (.inr (by omega))))
  · exact .inr (.inr ⟨rfl, rfl, rfl⟩)
  · exact .inr (.inl (right.accept_within.disjoint (.inr (by omega))))

theorem alternation_right (left : Isolated first low middle f) (right : Isolated second middle high g)
    (room : high + 2 ≤ UInt32.size) :
    Path.Part (.ofList (first ++ second ++ (between high).alternationEdges f g)) (.ofList second)
      (Within middle high) g.accept (· = (between high).accept) := by
  have start := between_start_within room
  refine right.part fun transition member => ?_
  simp only [List.mem_append, alternationEdges, List.mem_cons, List.not_mem_nil, or_false] at member
  rcases member with (inFirst | inSecond) | rfl | rfl | rfl | rfl
  · exact .inr (.inl ((left.source_within _ inFirst).disjoint (.inl (by omega))))
  · exact .inl inSecond
  · exact .inr (.inl (start.disjoint (.inr (by omega))))
  · exact .inr (.inl (start.disjoint (.inr (by omega))))
  · exact .inr (.inl (left.accept_within.disjoint (.inl (by omega))))
  · exact .inr (.inr ⟨rfl, rfl, rfl⟩)

theorem alternation_leaves (left : Isolated first low middle f) (right : Isolated second middle high g)
    (room : high + 2 ≤ UInt32.size) {transition : Transition}
    (member : transition ∈ TransitionTable.ofList (first ++ second ++ (between high).alternationEdges f g))
    (begins : transition.source = (between high).start) :
    transition.symbol = .epsilon ∧ (transition.target = f.start ∨ transition.target = g.start) := by
  have higher := right.start_within.low_lt_high
  have start := between_start_within room
  simp only [TransitionTable.mem_ofList, List.mem_append, alternationEdges, List.mem_cons, List.not_mem_nil,
    or_false] at member
  rcases member with (inFirst | inSecond) | rfl | rfl | rfl | rfl
  · exact absurd begins ((left.source_within _ inFirst).ne start (.inl (by omega)))
  · exact absurd begins ((right.source_within _ inSecond).ne start (.inl (by omega)))
  · exact ⟨rfl, .inl rfl⟩
  · exact ⟨rfl, .inr rfl⟩
  · exact absurd begins (left.accept_within.ne start (.inl (by omega)))
  · exact absurd begins (right.accept_within.ne start (.inl (by omega)))

theorem star_inner (inner : Isolated first low high f) (room : high + 2 ≤ UInt32.size) :
    Path.Part (.ofList (first ++ (between high).starEdges f)) (.ofList first) (Within low high) f.accept
      (fun state => state = f.start ∨ state = (between high).accept) := by
  have start := between_start_within room
  refine inner.part fun transition member => ?_
  simp only [List.mem_append, starEdges, List.mem_cons, List.not_mem_nil, or_false] at member
  rcases member with inFirst | rfl | rfl | rfl | rfl
  · exact .inl inFirst
  · exact .inr (.inl (start.disjoint (.inr (Nat.le_refl _))))
  · exact .inr (.inl (start.disjoint (.inr (Nat.le_refl _))))
  · exact .inr (.inr ⟨rfl, rfl, .inl rfl⟩)
  · exact .inr (.inr ⟨rfl, rfl, .inr rfl⟩)

theorem star_leaves (inner : Isolated first low high f) (room : high + 2 ≤ UInt32.size) {transition : Transition}
    (member : transition ∈ TransitionTable.ofList (first ++ (between high).starEdges f))
    (begins : transition.source = (between high).start) :
    transition.symbol = .epsilon ∧ (transition.target = f.start ∨ transition.target = (between high).accept) := by
  have start := between_start_within room
  simp only [TransitionTable.mem_ofList, List.mem_append, starEdges, List.mem_cons, List.not_mem_nil,
    or_false] at member
  rcases member with inFirst | rfl | rfl | rfl | rfl
  · exact absurd begins ((inner.source_within _ inFirst).ne start (.inl (Nat.le_refl _)))
  · exact ⟨rfl, .inl rfl⟩
  · exact ⟨rfl, .inr rfl⟩
  · exact absurd begins (inner.accept_within.ne start (.inl (Nat.le_refl _)))
  · exact absurd begins (inner.accept_within.ne start (.inl (Nat.le_refl _)))

end Isolated

/-! ## The words of a fragment -/

/-- The words on the paths through a fragment are the words of an expression. -/
def Reads (transitions : List Transition) (fragment : Nfa.Fragment) (t : Tree) : Prop :=
  ∀ word, Path (.ofList transitions) fragment.start word fragment.accept ↔ t.Matches word

namespace Reads
open Nfa.Fragment

theorem literal {number : Nat} (room : number + 2 ≤ UInt32.size) (char : Char) :
    Reads [⟨(between number).start, .literal char, (between number).accept⟩] (between number) (.literal char) := by
  have isolated := Isolated.literal room (.literal char)
  have differ := (between_start_within room).ne (between_accept_within room) (.inl (by omega))
  intro word
  constructor
  · intro path
    generalize ends : (between number).accept = target at path
    cases path with
    | refl => exact absurd ends.symm differ
    | epsilon edge _ => simp at edge
    | literal edge rest =>
      subst ends
      rw [TransitionTable.mem_ofList, List.mem_singleton] at edge
      cases edge
      obtain ⟨rfl, _⟩ := rest.nil_of_sink isolated.sink
      exact .literal char
  · rintro ⟨⟩
    exact .literal (TransitionTable.mem_ofList.mpr (.head _)) (.refl _)

variable {first second : List Transition} {low middle high : Nat} {f g : Nfa.Fragment} {t s : Tree}

theorem concat (left : Isolated first low middle f) (right : Isolated second middle high g)
    (reads : Reads first f t) (reads' : Reads second g s) :
    Reads (first ++ second ++ f.concatEdges g) ⟨f.start, g.accept⟩ (.concat t s) := by
  intro word
  constructor
  · intro path
    have outside : ¬ Within low middle g.accept := right.accept_within.disjoint (.inr (Nat.le_refl _))
    obtain ⟨u, v, rfl, through, after⟩ := path.exits (left.concat_first right)
      (fun v => Path (.ofList second) g.start v g.accept)
      (fun state v same rest _ => (same ▸ rest).confined (left.concat_second right) right.start_within)
      outside left.start_within
    exact .concat ((reads u).mp through) ((reads' v).mp after)
  · intro matched
    cases matched with
    | concat matched matched' =>
      have joins : ⟨f.accept, .epsilon, g.start⟩ ∈ TransitionTable.ofList (first ++ second ++ f.concatEdges g) := by
        simp [concatEdges]
      have through := ((reads _).mpr matched).widen (first ++ second ++ f.concatEdges g) (by simp)
      have after := ((reads' _).mpr matched').widen (first ++ second ++ f.concatEdges g) (by simp)
      exact through.trans (.epsilon joins after)

theorem alternation (left : Isolated first low middle f) (right : Isolated second middle high g)
    (room : high + 2 ≤ UInt32.size) (reads : Reads first f t) (reads' : Reads second g s) :
    Reads (first ++ second ++ (between high).alternationEdges f g) (between high) (.alternation t s) := by
  have accept := between_accept_within room
  have higher := right.start_within.low_lt_high
  have sink := (left.alternation right room).sink
  intro word
  constructor
  · intro path
    have goes := (between_start_within room).ne accept (.inl (Nat.le_refl _))
    obtain ⟨state, begins, rest⟩ := path.first_epsilon (fun state => state = f.start ∨ state = g.start) goes
      fun _ => left.alternation_leaves right room
    rcases begins with rfl | rfl
    · obtain ⟨u, v, rfl, through, rfl⟩ := rest.exits (left.alternation_left right room) (· = [])
        (fun state v same rest _ => (rest.nil_of_sink (same ▸ sink)).1) (accept.disjoint (.inr (by omega)))
        left.start_within
      rw [List.append_nil]
      exact .left ((reads u).mp through)
    · obtain ⟨u, v, rfl, through, rfl⟩ := rest.exits (left.alternation_right right room) (· = [])
        (fun state v same rest _ => (rest.nil_of_sink (same ▸ sink)).1) (accept.disjoint (.inr (by omega)))
        right.start_within
      rw [List.append_nil]
      exact .right ((reads' u).mp through)
  · intro matched
    have edge {transition : Transition} (member : transition ∈ (between high).alternationEdges f g) :
        transition ∈ TransitionTable.ofList (first ++ second ++ (between high).alternationEdges f g) :=
      TransitionTable.mem_ofList.mpr (List.mem_append_right _ member)
    rw [← List.append_nil word]
    cases matched with
    | left matched =>
      have through := ((reads _).mpr matched).widen (first ++ second ++ (between high).alternationEdges f g) (by simp)
      refine .epsilon (edge (by simp [alternationEdges])) (through.trans (.epsilon (edge ?_) (.refl _)))
      simp [alternationEdges]
    | right matched =>
      have through := ((reads' _).mpr matched).widen (first ++ second ++ (between high).alternationEdges f g) (by simp)
      refine .epsilon (edge ?_) (through.trans (.epsilon (edge ?_) (.refl _)))
      · exact .tail _ (.head _)
      · simp [alternationEdges]

theorem star (inner : Isolated first low high f) (room : high + 2 ≤ UInt32.size) (reads : Reads first f t) :
    Reads (first ++ (between high).starEdges f) (between high) (.star t) := by
  have accept := between_accept_within room
  have sink := (inner.star room).sink
  intro word
  constructor
  · intro path
    have goes := (between_start_within room).ne accept (.inl (Nat.le_refl _))
    obtain ⟨state, begins, rest⟩ := path.first_epsilon (fun state => state = f.start ∨ state = (between high).accept)
      goes fun _ => inner.star_leaves room
    rcases begins with rfl | rfl
    · obtain ⟨u, v, rfl, through, after⟩ := rest.exits (inner.star_inner room) (Tree.Matches (.star t)) (by
        rintro state v (rfl | rfl) rest back
        · obtain ⟨u', v', rfl, through, after⟩ := back inner.start_within
          exact .again ((reads u').mp through) after
        · obtain ⟨rfl, _⟩ := rest.nil_of_sink sink
          exact .stop t) (accept.disjoint (.inr (by omega))) inner.start_within
      exact .again ((reads u).mp through) after
    · obtain ⟨rfl, _⟩ := rest.nil_of_sink sink
      exact .stop t
  · intro matched
    have edge {transition : Transition} (member : transition ∈ (between high).starEdges f) :
        transition ∈ TransitionTable.ofList (first ++ (between high).starEdges f) :=
      TransitionTable.mem_ofList.mpr (List.mem_append_right _ member)
    -- The start of the repetition and the end of its operand lead to the same states.
    have both : Path (.ofList (first ++ (between high).starEdges f)) (between high).start word (between high).accept ∧
        Path (.ofList (first ++ (between high).starEdges f)) f.accept word (between high).accept := by
      generalize isStar : Tree.star t = whole at matched
      induction matched with
      | stop other =>
        exact ⟨.epsilon (edge (by simp [starEdges])) (.refl _), .epsilon (edge (by simp [starEdges])) (.refl _)⟩
      | again matched _ _ ih =>
        cases isStar
        have through := ((reads _).mpr matched).widen (first ++ (between high).starEdges f) (by simp)
        have whole := through.trans (ih rfl).2
        exact ⟨.epsilon (edge (by simp [starEdges])) whole, .epsilon (edge (by simp [starEdges])) whole⟩
      | _ => cases isStar
    exact both.1

end Reads

/-- The words on the paths through the fragment of an expression are the words of
    the expression. -/
theorem Tree.reads (t : Tree) {base : Nat} (room : base + t.stateCount ≤ UInt32.size) :
    Reads (t.edges base) (t.fragment base) t := by
  induction t generalizing base with
  | literal char => exact Reads.literal room char
  | concat first second ihFirst ihSecond =>
    rw [stateCount, ← Nat.add_assoc] at room
    have roomFirst : base + first.stateCount ≤ UInt32.size := by omega
    exact .concat (first.isolated roomFirst) (second.isolated room) (ihFirst roomFirst) (ihSecond room)
  | alternation left right ihLeft ihRight =>
    rw [stateCount, ← Nat.add_assoc, ← Nat.add_assoc] at room
    have roomLeft : base + left.stateCount ≤ UInt32.size := by omega
    have roomRight : base + left.stateCount + right.stateCount ≤ UInt32.size := by omega
    exact .alternation (left.isolated roomLeft) (right.isolated roomRight) room (ihLeft roomLeft) (ihRight roomRight)
  | star inner ih =>
    rw [stateCount, ← Nat.add_assoc] at room
    have roomInner : base + inner.stateCount ≤ UInt32.size := by omega
    exact .star (inner.isolated roomInner) room (ih roomInner)

theorem Tree.path_nfa_iff (t : Tree) (room : t.stateCount ≤ UInt32.size) (word : List Char) :
    Path t.nfa.transitions t.nfa.start word t.nfa.accept ↔ t.Matches word :=
  t.reads (by omega) word

/-- The postorder of an expression, whatever its characters and positions, is
    assembled to an automaton that has a path on a word exactly when the word is
    one of the expression. -/
theorem Nfa.ofPostfix_reads (t : Tree) {lexemes : List Lexeme} (spelled : lexemes.map (·.token) = t.postorder)
    (few : t.stateCount < UInt32.size) :
    ∃ nfa, Nfa.ofPostfix lexemes = .ok nfa ∧ nfa.numStates.toNat = t.stateCount ∧
      ∀ word, Path nfa.transitions nfa.start word nfa.accept ↔ t.Matches word := by
  refine ⟨t.nfa, ofPostfix_postorder t spelled, ?_, t.path_nfa_iff (Nat.le_of_lt few)⟩
  exact UInt32.toNat_ofNat_of_lt' few

theorem Nfa.ofPostfix_reads_signs :
    ∃ nfa, Nfa.ofPostfix [⟨.literal '|', 5⟩, ⟨.literal '*', 0⟩, ⟨.concat, 9⟩, ⟨.star, 2⟩] = .ok nfa ∧
      nfa.numStates.toNat = 6 ∧ Path nfa.transitions nfa.start ['|', '*', '|', '*'] nfa.accept := by
  have spelled : ([⟨.literal '|', 5⟩, ⟨.literal '*', 0⟩, ⟨.concat, 9⟩, ⟨.star, 2⟩] : List Lexeme).map (·.token) =
      (Tree.star (.concat (.literal '|') (.literal '*'))).postorder := rfl
  obtain ⟨nfa, built, count, reads⟩ := Nfa.ofPostfix_reads _ spelled (by decide)
  have pair : Tree.Matches (.concat (.literal '|') (.literal '*')) (['|'] ++ ['*']) :=
    .concat (.literal '|') (.literal '*')
  exact ⟨nfa, built, count, (reads _).mpr (.again pair (.again pair (.stop _)))⟩

end RegexCompiler
