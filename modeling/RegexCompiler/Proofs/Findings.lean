import RegexCompiler.Proofs.Exhaustion

namespace RegexCompiler

/-- Some word over the alphabet leads the simulation to the set. -/
def Nfa.Visits (nfa : Nfa) (alphabet : Alphabet) (states : StateSet) : Prop :=
  ∃ word, (∀ char ∈ word, char ∈ alphabet) ∧ nfa.simulate word = states

theorem Nfa.simulate_concat (nfa : Nfa) (word : List Char) (char : Char) :
    nfa.simulate (word ++ [char]) = nfa.advance (nfa.simulate word) char := by
  rw [simulate, List.foldl_concat]
  rfl

theorem Nfa.Visits.advance {nfa : Nfa} {alphabet : Alphabet} {active : StateSet} {char : Char}
    (visits : nfa.Visits alphabet active) (listed : char ∈ alphabet) : nfa.Visits alphabet (nfa.advance active char) := by
  obtain ⟨word, inside, rfl⟩ := visits
  refine ⟨word ++ [char], fun c member => ?_, nfa.simulate_concat word char⟩
  rcases List.mem_append.mp member with before | last
  · exact inside c before
  · rw [List.mem_singleton.mp last]
    exact listed

namespace Exploration

/-- What holds in every round of the exploration: words lead to the sets that were
    found, among which is the first one, and all that a set leads to was found once
    it is taken up. -/
structure Finds (nfa : Nfa) (alphabet : Alphabet) (taken : List (StateId × StateSet)) (e : Exploration) : Prop where
  alphabet_eq : e.dfa.alphabet = alphabet
  initial_mem : nfa.initial ∈ e.dfa.sets
  visits : ∀ states ∈ e.dfa.sets, nfa.Visits alphabet states
  waits : ∀ item ∈ e.waiting, item.2 ∈ e.dfa.sets
  closed : ∀ item ∈ taken, ∀ char ∈ alphabet, nfa.advance item.2 char ≠ ∅ → nfa.advance item.2 char ∈ e.dfa.sets

theorem advance_mem_follow (nfa : Nfa) (source : StateId) (active : StateSet) (e : Exploration) {char : Char}
    (nonempty : nfa.advance active char ≠ ∅) : nfa.advance active char ∈ (follow nfa source active e char).dfa.sets := by
  obtain ⟨gone, _⟩ | ⟨_, ⟨target, found, eq⟩ | ⟨_, eq⟩⟩ := follow_cases nfa source active e char
  · exact absurd gone nonempty
  · obtain ⟨index, found, _⟩ := Option.map_eq_some_iff.mp found
    rw [eq]
    exact Array.isSome_idxOf?.mp (Option.isSome_iff_exists.mpr ⟨index, found⟩)
  · rw [eq]
    simp [Dfa.addState, Dfa.addTransition]

theorem mem_sets_follow {nfa : Nfa} {e : Exploration} {states : StateSet} (found : states ∈ e.dfa.sets)
    (source : StateId) (active : StateSet) (char : Char) : states ∈ (follow nfa source active e char).dfa.sets := by
  obtain ⟨_, eq⟩ | ⟨_, ⟨target, _, eq⟩ | ⟨_, eq⟩⟩ := follow_cases nfa source active e char
  · rwa [eq]
  · rwa [eq]
  · rw [eq]
    exact Array.mem_push_of_mem _ found

theorem mem_sets_foldl_follow {nfa : Nfa} {e : Exploration} {states : StateSet} (found : states ∈ e.dfa.sets)
    (source : StateId) (active : StateSet) (chars : List Char) :
    states ∈ (chars.foldl (follow nfa source active) e).dfa.sets := by
  induction chars generalizing e with
  | nil => exact found
  | cons char rest ih => exact ih (mem_sets_follow found source active char)

/-- What the characters lead to is found when they are followed. -/
theorem advance_mem_foldl_follow (nfa : Nfa) (source : StateId) (active : StateSet) (e : Exploration) {chars : List Char}
    {char : Char} (member : char ∈ chars) (nonempty : nfa.advance active char ≠ ∅) :
    nfa.advance active char ∈ (chars.foldl (follow nfa source active) e).dfa.sets := by
  obtain ⟨before, after, rfl⟩ := List.append_of_mem member
  rw [List.foldl_append, List.foldl_cons]
  exact mem_sets_foldl_follow (advance_mem_follow nfa source active _ nonempty) source active after

namespace Finds

variable {nfa : Nfa} {alphabet : Alphabet} {taken : List (StateId × StateSet)} {e : Exploration}

theorem initial (nfa : Nfa) (alphabet : Alphabet) : Finds nfa alphabet [] (Exploration.initial nfa alphabet) where
  alphabet_eq := rfl
  initial_mem := Array.mem_push_self
  visits := by
    intro states member
    obtain rfl : states = nfa.initial := by simpa [Exploration.initial, Dfa.addState, Dfa.setStart] using member
    exact ⟨[], by simp, rfl⟩
  waits := by
    intro item member
    rw [List.mem_singleton.mp member]
    exact Array.mem_push_self
  closed := by simp

theorem after_follow (finds : Finds nfa alphabet taken e) {active : StateSet} (visits : nfa.Visits alphabet active)
    (source : StateId) {char : Char} (listed : char ∈ alphabet) :
    Finds nfa alphabet taken (follow nfa source active e char) := by
  have kept {states : StateSet} (found : states ∈ e.dfa.sets) : states ∈ (follow nfa source active e char).dfa.sets :=
    mem_sets_follow found source active char
  obtain ⟨_, eq⟩ | ⟨_, ⟨target, _, eq⟩ | ⟨_, eq⟩⟩ := follow_cases nfa source active e char
  · rw [eq]
    exact finds
  · rw [eq]
    exact ⟨finds.alphabet_eq, finds.initial_mem, finds.visits, finds.waits, finds.closed⟩
  · refine ⟨?_, kept finds.initial_mem, fun states member => ?_, fun item member => ?_,
      fun item earlier c inside nonempty => kept (finds.closed item earlier c inside nonempty)⟩
    · rw [eq]
      exact finds.alphabet_eq
    · rw [eq] at member
      rcases Array.mem_push.mp member with old | rfl
      · exact finds.visits states old
      · exact visits.advance listed
    · rw [eq] at member
      rcases List.mem_append.mp member with old | new
      · exact kept (finds.waits item old)
      · rw [List.mem_singleton.mp new, eq]
        exact Array.mem_push_self

theorem after_expand (finds : Finds nfa alphabet taken e) {active : StateSet} (visits : nfa.Visits alphabet active)
    (source : StateId) : Finds nfa alphabet (taken ++ [(source, active)]) (expand nfa source active e) := by
  have along (chars : List Char) (inside : ∀ char ∈ chars, char ∈ alphabet) :
      Finds nfa alphabet taken (chars.foldl (follow nfa source active) e) := by
    induction chars generalizing e with
    | nil => exact finds
    | cons char rest ih =>
      exact ih (finds.after_follow visits source (inside char (.head _))) fun c member => inside c (.tail _ member)
  rw [expand, finds.alphabet_eq]
  have after := along alphabet.toList fun char member => Std.ExtTreeSet.mem_toList.mp member
  refine ⟨after.alphabet_eq, after.initial_mem, after.visits, after.waits, fun item member char inside nonempty => ?_⟩
  rcases List.mem_append.mp member with earlier | last
  · exact after.closed item earlier char inside nonempty
  · obtain rfl := List.mem_singleton.mp last
    exact advance_mem_foldl_follow nfa source active e (Std.ExtTreeSet.mem_toList.mpr inside) nonempty

theorem after_round {before after : Exploration} {item : StateId × StateSet}
    (round : expandRound nfa before = some (item, after)) (finds : Finds nfa alphabet taken before) :
    Finds nfa alphabet (taken ++ [item]) after := by
  obtain ⟨dfa, waiting⟩ := before
  cases waiting with
  | nil => cases round
  | cons first rest =>
    cases round
    have visits := finds.visits first.2 (finds.waits first (.head _))
    have others : Finds nfa alphabet taken ⟨dfa, rest⟩ :=
      ⟨finds.alphabet_eq, finds.initial_mem, finds.visits, fun item member => finds.waits item (.tail _ member),
        finds.closed⟩
    exact others.after_expand visits first.1

end Finds

end Exploration

/-- The sets that are found are those that words over the alphabet lead to, but the
    empty one. -/
theorem Dfa.mem_sets_toDfa_iff {nfa : Nfa} {alphabet : Alphabet} {states : StateSet} :
    states ∈ (nfa.toDfa alphabet).sets ↔ states ≠ ∅ ∧ nfa.Visits alphabet states := by
  obtain ⟨taken, halts, queues⟩ := Exploration.queues_run nfa alphabet
  have finds : Exploration.Finds nfa alphabet taken ⟨_, []⟩ :=
    halts.rounds.invariant (fun _ _ _ _ => Exploration.Finds.after_round) (Exploration.Finds.initial nfa alphabet)
  have sets : taken = (nfa.toDfa alphabet).numbered := queues.taken_eq
  constructor
  · intro member
    exact ⟨(queues.inside states (Array.mem_toList_iff.mpr member)).1, finds.visits states member⟩
  · rintro ⟨nonempty, word, inside, rfl⟩
    -- What the word without its last character leads to was taken up, and all its characters followed.
    induction word using List.reverseRecOn with
    | nil => exact finds.initial_mem
    | append_singleton word char ih =>
      rw [nfa.simulate_concat] at nonempty ⊢
      have before : nfa.simulate word ≠ ∅ := by
        intro none
        rw [none] at nonempty
        exact nonempty (nfa.foldl_advance_empty [char])
      have found := ih (fun c member => inside c (List.mem_append_left _ member)) before
      rw [← Array.mem_toList_iff, ← Dfa.map_snd_numbered, ← sets] at found
      obtain ⟨item, member, same⟩ := List.mem_map.mp found
      rw [← same] at nonempty ⊢
      exact finds.closed item member char (inside char (by simp)) nonempty

end RegexCompiler
