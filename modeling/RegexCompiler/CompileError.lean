import RegexCompiler.Token

namespace RegexCompiler

/-- What is wrong at a place of a malformed expression. -/
inductive Fault where
  | unmatchedLeftParen
  | unmatchedRightParen
  | missingOperand (operator : Token)
  | missingOperator
deriving DecidableEq

/-- Why an expression cannot be compiled. -/
inductive CompileError where
  | emptyExpression
  | malformed (position : Nat) (fault : Fault)
deriving DecidableEq

theorem bind_eq_ok_iff {Result Final : Type} {first : Except CompileError Result}
    {second : Result → Except CompileError Final} {final : Final} :
    first >>= second = .ok final ↔ ∃ result, first = .ok result ∧ second result = .ok final := by
  cases first with
  | error fault =>
    constructor
    · intro failed
      cases failed
    · rintro ⟨_, failed, _⟩
      cases failed
  | ok result =>
    constructor
    · intro passed
      exact ⟨result, rfl, passed⟩
    · rintro ⟨_, ⟨⟩, passed⟩
      exact passed

theorem bind_eq_error_iff {Result Final : Type} {first : Except CompileError Result}
    {second : Result → Except CompileError Final} {error : CompileError} :
    first >>= second = .error error ↔
      first = .error error ∨ ∃ result, first = .ok result ∧ second result = .error error := by
  cases first with
  | error fault =>
    constructor
    · rintro ⟨⟩
      exact .inl rfl
    · rintro (⟨⟨⟩⟩ | ⟨_, ⟨⟩, _⟩)
      rfl
  | ok result =>
    constructor
    · intro failed
      exact .inr ⟨result, rfl, failed⟩
    · rintro (⟨⟨⟩⟩ | ⟨_, ⟨⟩, failed⟩)
      exact failed

theorem pure_eq_ok_iff {Result : Type} {result result' : Result} :
    (pure result : Except CompileError Result) = .ok result' ↔ result = result' :=
  ⟨Except.ok.inj, congrArg Except.ok⟩

theorem pure_ne_error {Result : Type} {result : Result} {error : CompileError} :
    (pure result : Except CompileError Result) ≠ .error error := by
  rintro ⟨⟩

theorem foldlM_cons_eq_ok_iff {State Item : Type} {step : State → Item → Except CompileError State}
    {item : Item} {rest : List Item} {before after : State} :
    (item :: rest).foldlM step before = .ok after ↔
      ∃ between, step before item = .ok between ∧ rest.foldlM step between = .ok after := by
  rw [List.foldlM_cons, bind_eq_ok_iff]

theorem foldlM_cons_of_ok {State Item : Type} {step : State → Item → Except CompileError State}
    {item : Item} {rest : List Item} {before after : State} (passed : step before item = .ok after) :
    (item :: rest).foldlM step before = rest.foldlM step after := by
  rw [List.foldlM_cons, passed]
  rfl

theorem foldlM_append_of_ok {State Item : Type} {step : State → Item → Except CompileError State}
    {first second : List Item} {before after : State} (passed : first.foldlM step before = .ok after) :
    (first ++ second).foldlM step before = second.foldlM step after := by
  rw [List.foldlM_append, passed]
  rfl

/-- A pass that acts on views of its states and items as another one, but for how
    it reports errors, does so along a sequence. -/
theorem mapError_foldlM {State View Item Seen : Type} {step : State → Item → Except CompileError State}
    {step' : View → Seen → Except CompileError View} {view : State → View} {seen : Item → Seen}
    {report : CompileError → CompileError}
    (agrees : ∀ state item, ((step state item).map view).mapError report = step' (view state) (seen item))
    (items : List Item) (state : State) :
    ((items.foldlM step state).map view).mapError report = (items.map seen).foldlM step' (view state) := by
  induction items generalizing state with
  | nil => rfl
  | cons item rest ih =>
    rw [List.foldlM_cons, List.map_cons, List.foldlM_cons, ← agrees]
    cases step state item with
    | error fault => rfl
    | ok after => exact ih after

/-- A view of the state on which a pass acts as another one is kept along a
    sequence. -/
theorem map_foldlM {State View Item : Type} {step : State → Item → Except CompileError State}
    {step' : View → Item → Except CompileError View} {view : State → View}
    (agrees : ∀ state item, (step state item).map view = step' (view state) item) (items : List Item) (state : State) :
    (items.foldlM step state).map view = items.foldlM step' (view state) := by
  have same (outcome : Except CompileError View) : outcome.mapError id = outcome := by
    cases outcome <;> rfl
  have agreesOutright (state : State) (item : Item) :
      ((step state item).map view).mapError id = step' (view state) (id item) :=
    (same _).trans (agrees state item)
  have along := mapError_foldlM agreesOutright items state
  rwa [same, List.map_id] at along

/-- Outcomes that differ at most in how errors are reported are both successes or
    both failures. -/
theorem outcome_of_mapError_eq {Result : Type} {report : CompileError → CompileError}
    {outcome outcome' : Except CompileError Result} (same : outcome.mapError report = outcome'.mapError report) :
    (∀ result, outcome = .ok result → outcome' = .ok result) ∧
      ∀ error, outcome = .error error → ∃ error', outcome' = .error error' ∧ report error' = report error := by
  cases outcome with
  | ok result =>
    cases outcome' with
    | ok result' =>
      cases same
      exact ⟨fun _ found => found, fun _ failed => nomatch failed⟩
    | error error' => cases same
  | error error =>
    cases outcome' with
    | ok result' => cases same
    | error error' =>
      refine ⟨fun _ succeeded => (nomatch succeeded), fun _ failed => ?_⟩
      cases failed
      exact ⟨error', rfl, (Except.error.inj same).symm⟩

/-- The wording of a fault. -/
def Fault.message : Fault → String
  | .unmatchedLeftParen => "unmatched '('"
  | .unmatchedRightParen => "unmatched ')'"
  | .missingOperand operator =>
    "operator '" ++ String.singleton operator.toChar ++ "' is missing an operand"
  | .missingOperator => "operands without an operator joining them"

/-- The wording of an error, with the place of a fault in front of it. -/
def CompileError.message : CompileError → String
  | .emptyExpression => "empty expression"
  | .malformed position fault =>
    "malformed expression at position " ++ position.repr ++ ": " ++ fault.message

end RegexCompiler
