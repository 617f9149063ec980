import RegexCompiler.StateSet

/-! A loop is given by what one of its rounds does. -/

namespace RegexCompiler

/-- What a round of a loop does: the item that it takes up and the state after
    it, or nothing where the loop ends. -/
abbrev Round (State Item : Type) : Type :=
  State → Option (Item × State)

/-- Rounds that take up the listed items lead from one state to another. -/
inductive Rounds {State Item : Type} (round : Round State Item) : State → List Item → State → Prop where
  | refl (state : State) : Rounds round state [] state
  | step {first middle last : State} {item : Item} {items : List Item} :
    round first = some (item, middle) → Rounds round middle items last → Rounds round first (item :: items) last

/-- The loop takes up the listed items, one in each round, and ends. -/
structure Terminates {State Item : Type} (round : Round State Item) (first : State) (items : List Item) (last : State) :
    Prop where
  rounds : Rounds round first items last
  ends : round last = none

section

variable {State Item : Type} {round : Round State Item}

theorem Terminates.refl {state : State} (ends : round state = none) : Terminates round state [] state :=
  ⟨.refl state, ends⟩

theorem Terminates.step {first middle last : State} {item : Item} {items : List Item}
    (taken : round first = some (item, middle)) (halts : Terminates round middle items last) :
    Terminates round first (item :: items) last :=
  ⟨.step taken halts.rounds, halts.ends⟩

/-- What every round keeps, in view of the items taken up so far, all rounds
    keep. -/
theorem Rounds.invariant {Inv : List Item → State → Prop}
    (keeps : ∀ taken state item after, round state = some (item, after) → Inv taken state → Inv (taken ++ [item]) after)
    {first last : State} {taken items : List Item} (rounds : Rounds round first items last) (inv : Inv taken first) :
    Inv (taken ++ items) last := by
  induction rounds generalizing taken with
  | refl =>
    rw [List.append_nil]
    exact inv
  | step next _ ih =>
    rw [List.append_cons]
    exact ih (keeps taken _ _ _ next inv)

end

/-- The states that wait to be taken up by a search, and those that it has seen. -/
structure Traversal where
  waiting : List StateId
  seen : StateSet

end RegexCompiler
