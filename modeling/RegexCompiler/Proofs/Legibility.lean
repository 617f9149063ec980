import RegexCompiler.Proofs.Histories
import RegexCompiler.Proofs.Literals

/-!
A table escapes nothing. Still a reader who goes through it from the start knows where each field ends
(`Legible`), so it loses nothing of what it shows (`table_injective`).
-/

namespace RegexCompiler

/-! ## Legible texts -/

/-- Texts whose end a reader knows, as long as a character of the given kind or nothing
    stands behind them. -/
def Legible {α : Type} (stops : Char → Prop) (write : α → List Char) : Prop :=
  ∀ ⦃left right : α⦄ ⦃s t : List Char⦄, (∀ c ∈ s.head?, stops c) → (∀ c ∈ t.head?, stops c) →
    write left ++ s = write right ++ t → left = right ∧ s = t

/-- What is no digit, and so may stand behind a number. -/
def NoDigit (c : Char) : Prop := c.isDigit = false

/-- Anything may stand behind a text that shows its own end. -/
def Anything (_ : Char) : Prop := True

section

variable {α β : Type} {stops : Char → Prop} {write : α → List Char}

theorem Legible.cons (legible : Legible stops write) (sign : Char) : Legible stops fun a => sign :: write a := by
  intro left right s t behind behind' same
  exact legible behind behind' (List.cons.inj same).2

theorem Legible.comp (legible : Legible stops write) {f : β → α} (injective : ∀ ⦃x y⦄, f x = f y → x = y) :
    Legible stops fun b => write (f b) := by
  intro left right s t behind behind' same
  obtain ⟨images, rests⟩ := legible behind behind' same
  exact ⟨injective images, rests⟩

/-- A sign that may stand behind texts of this kind shows where they end. -/
theorem Legible.before {sign : Char} (legible : Legible stops write) {left right : α} {s t : List Char}
    (same : write left ++ sign :: s = write right ++ sign :: t) (stop : stops sign) : left = right ∧ s = t := by
  obtain ⟨values, rests⟩ := legible (by simpa using stop) (by simpa using stop) same
  exact ⟨values, (List.cons.inj rests).2⟩

theorem flatMap_injective {items items' : List α} (nonempty : ∀ a, write a ≠ [])
    (shown : ∀ a ∈ items, ∀ a' ∈ items', ∀ s t, write a ++ s = write a' ++ t → a = a' ∧ s = t)
    (same : items.flatMap write = items'.flatMap write) : items = items' := by
  induction items generalizing items' with
  | nil =>
    cases items' with
    | nil => rfl
    | cons a' rest' => exact absurd (List.append_eq_nil_iff.mp same.symm).1 (nonempty a')
  | cons a rest ih =>
    cases items' with
    | nil => exact absurd (List.append_eq_nil_iff.mp same).1 (nonempty a)
    | cons a' rest' =>
      obtain ⟨rfl, rests⟩ := shown a (.head _) a' (.head _) _ _ same
      rw [ih (fun b member b' member' => shown b (.tail _ member) b' (.tail _ member')) rests]

end

/-! ## Numbers and lists -/

theorem takeWhile_isDigit_append {digits s : List Char} (inside : ∀ c ∈ digits, c.isDigit)
    (behind : ∀ c ∈ s.head?, NoDigit c) : (digits ++ s).takeWhile Char.isDigit = digits := by
  rw [List.takeWhile_append_of_pos inside]
  cases s with
  | nil => rw [List.takeWhile_nil, List.append_nil]
  | cons c rest =>
    have stop : c.isDigit = false := behind c rfl
    rw [List.takeWhile_cons_of_neg (Bool.eq_false_iff.mp stop), List.append_nil]

theorem isDigit_of_mem_repr {n : Nat} {c : Char} (member : c ∈ n.repr.toList) : c.isDigit := by
  rw [Nat.repr_eq_ofList_toDigits, String.toList_ofList] at member
  exact Nat.isDigit_of_mem_toDigits (by decide) (by decide) member

theorem legible_repr : Legible NoDigit fun n : Nat => n.repr.toList := by
  intro left right s t behind behind' same
  have digits (n : Nat) : ∀ c ∈ n.repr.toList, c.isDigit := fun _ => isDigit_of_mem_repr
  have numbers : left.repr.toList = right.repr.toList := by
    rw [← takeWhile_isDigit_append (digits left) behind, same, takeWhile_isDigit_append (digits right) behind']
  obtain rfl : left = right := Nat.repr_injective (String.toList_inj.mp numbers)
  exact ⟨rfl, List.append_cancel_left same⟩

theorem legible_state : Legible NoDigit fun state : StateId => state.toNat.repr.toList :=
  legible_repr.comp fun _ _ => UInt32.toNat_inj.mp

theorem toList_stateLabel (state : StateId) : (stateLabel state).toList = 'S' :: state.toNat.repr.toList :=
  String.toList_append

theorem legible_stateLabel : Legible NoDigit fun state => (stateLabel state).toList := by
  simp only [toList_stateLabel]
  exact legible_state.cons 'S'

section

variable {α : Type} {stops : Char → Prop} {write : α → List Char}

/-- The items of a list behind its first one and the closing bracket. -/
def listRest (write : α → List Char) : List α → List Char
  | [] => [']']
  | a :: rest => ',' :: ' ' :: (write a ++ listRest write rest)

theorem head?_listRest (comma : stops ',') (bracket : stops ']') (items : List α) (s : List Char) :
    ∀ c ∈ (listRest write items ++ s).head?, stops c := by
  intro c first
  cases items with
  | nil =>
    cases first
    exact bracket
  | cons a rest =>
    cases first
    exact comma

/-- A list ends at its bracket, if its items end before commas and brackets. -/
theorem legible_listRest (legible : Legible stops write) (comma : stops ',') (bracket : stops ']') :
    Legible Anything (listRest write) := by
  intro left right s t _ _ same
  induction left generalizing right with
  | nil =>
    cases right with
    | nil => exact ⟨rfl, (List.cons.inj same).2⟩
    | cons b rest' => exact absurd (List.cons.inj same).1 (by decide)
  | cons a rest ih =>
    cases right with
    | nil => exact absurd (List.cons.inj same).1 (by decide)
    | cons b rest' =>
      have items : write a ++ (listRest write rest ++ s) = write b ++ (listRest write rest' ++ t) := by
        simpa [listRest] using same
      obtain ⟨rfl, rests⟩ := legible (head?_listRest comma bracket rest s) (head?_listRest comma bracket rest' t) items
      obtain ⟨rfl, behind⟩ := ih rests
      exact ⟨rfl, behind⟩

/-- The items in brackets, with a comma and a blank between them. -/
def bracketed (write : α → List Char) : List α → List Char
  | [] => ['[', ']']
  | a :: rest => '[' :: (write a ++ listRest write rest)

theorem head?_bracketed (items : List α) : (bracketed write items).head? = some '[' := by
  cases items <;> rfl

theorem intercalate_append_bracket (a : α) (rest : List α) :
    [',', ' '].intercalate ((a :: rest).map write) ++ [']'] = write a ++ listRest write rest := by
  induction rest generalizing a with
  | nil => simp [listRest]
  | cons b rest ih =>
    rw [List.map_cons, List.map_cons, List.intercalate_cons_cons, List.append_assoc, ← List.map_cons, ih b]
    simp [listRest]

theorem legible_bracketed (legible : Legible stops write) (comma : stops ',') (bracket : stops ']')
    (starts : ∀ a s t, write a ++ s ≠ ']' :: t) : Legible Anything (bracketed write) := by
  intro left right s t _ _ same
  cases left with
  | nil =>
    cases right with
    | nil => exact ⟨rfl, (List.cons.inj (List.cons.inj same).2).2⟩
    | cons b rest' =>
      have items : write b ++ (listRest write rest' ++ t) = ']' :: s := by
        simpa [bracketed] using same.symm
      exact absurd items (starts b _ _)
  | cons a rest =>
    cases right with
    | nil =>
      have items : write a ++ (listRest write rest ++ s) = ']' :: t := by
        simpa [bracketed] using same
      exact absurd items (starts a _ _)
    | cons b rest' =>
      have items : write a ++ (listRest write rest ++ s) = write b ++ (listRest write rest' ++ t) := by
        simpa [bracketed] using same
      obtain ⟨rfl, rests⟩ := legible (head?_listRest comma bracket rest s) (head?_listRest comma bracket rest' t) items
      obtain ⟨rfl, behind⟩ := legible_listRest legible comma bracket (fun _ _ => trivial) (fun _ _ => trivial) rests
      exact ⟨rfl, behind⟩

end

theorem toList_bracketed {α : Type} (write : α → String) (items : List α) :
    ("[" ++ String.intercalate ", " (items.map write) ++ "]").toList = bracketed (fun a => (write a).toList) items := by
  rw [String.toList_append, String.toList_append, String.toList_intercalate, List.map_map]
  change '[' :: ([',', ' '].intercalate _ ++ [']']) = _
  cases items with
  | nil => rfl
  | cons a rest => exact congrArg ('[' :: ·) (intercalate_append_bracket a rest)

theorem legible_option {α : Type} {stops : Char → Prop} {write : α → String} {absent : String}
    (legible : Legible stops fun a => (write a).toList)
    (apart : ∀ a s t, (∀ c ∈ t.head?, stops c) → (write a).toList ++ s ≠ absent.toList ++ t) :
    Legible stops fun a? : Option α => ((a?.map write).getD absent).toList := by
  intro left right s t behind behind' same
  cases left with
  | none =>
    cases right with
    | none => exact ⟨rfl, List.append_cancel_left same⟩
    | some b => exact absurd same.symm (apart b t s behind)
  | some a =>
    cases right with
    | none => exact absurd same (apart a s t behind')
    | some b =>
      obtain ⟨rfl, rests⟩ := legible behind behind' same
      exact ⟨rfl, rests⟩

/-! ## Fields of tables -/

theorem repr_ne_bracket (n : Nat) (s t : List Char) : n.repr.toList ++ s ≠ ']' :: t := by
  intro same
  cases digits : n.repr.toList with
  | nil => exact Nat.repr_ne_empty (String.toList_eq_nil_iff.mp digits)
  | cons c rest =>
    have digit : c.isDigit := isDigit_of_mem_repr (n := n) (by rw [digits]; exact .head _)
    rw [digits] at same
    rw [(List.cons.inj same).1] at digit
    exact absurd digit (by decide)

theorem toList_render (states : StateSet) :
    states.render.toList = bracketed (fun state => state.toNat.repr.toList) states.toList :=
  toList_bracketed (fun state : StateId => state.toNat.repr) states.toList

theorem legible_render : Legible Anything fun states : StateSet => states.render.toList := by
  simp only [toList_render]
  refine (legible_bracketed legible_state rfl rfl fun state => repr_ne_bracket state.toNat).comp ?_
  exact fun _ _ => Std.ExtTreeSet.toList_inj.mp

theorem legible_finals : Legible Anything fun states : StateSet =>
    bracketed (fun state => (stateLabel state).toList) states.toList := by
  refine (legible_bracketed legible_stateLabel rfl rfl fun state s t same => ?_).comp ?_
  · rw [toList_stateLabel] at same
    exact absurd (List.cons.inj same).1 (by decide)
  · exact fun _ _ => Std.ExtTreeSet.toList_inj.mp

theorem legible_start : Legible NoDigit fun start : Option StateId => ((start.map stateLabel).getD "none").toList := by
  refine legible_option legible_stateLabel fun state s t _ same => ?_
  have first : 'S' :: (state.toNat.repr.toList ++ s) = 'n' :: (['o', 'n', 'e'] ++ t) := by
    rw [toList_stateLabel] at same
    exact same
  exact absurd (List.cons.inj first).1 (by decide)

/-- Where a state was never added the field is empty, which no set is. -/
theorem legible_states :
    Legible (· ≠ '[') fun states : Option StateSet => ((states.map StateSet.render).getD "").toList := by
  refine legible_option (fun _ _ _ _ _ _ same => legible_render (fun _ _ => trivial) (fun _ _ => trivial) same) ?_
  -- A set opens with a bracket, and nothing that follows an empty field does.
  intro states s t behind same
  have opening : (states.render.toList ++ s).head? = some '[' := by
    rw [toList_render, List.head?_append, head?_bracketed, Option.some_or]
  rw [same] at opening
  exact behind '[' opening rfl

/-! ## Nondeterministic automata -/

theorem Symbol.toChar_inj {left right : Symbol} (plain : left ≠ .literal epsilonSign)
    (plain' : right ≠ .literal epsilonSign) (same : left.toChar = right.toChar) : left = right := by
  cases left with
  | literal c =>
    cases right with
    | literal c' => exact congrArg Symbol.literal same
    | epsilon => exact absurd (congrArg Symbol.literal same) plain
  | epsilon =>
    cases right with
    | literal c' => exact absurd (congrArg Symbol.literal same.symm) plain'
    | epsilon => rfl

namespace Nfa

theorem toList_row (source : StateId) (symbol : Symbol) (targets : StateSet) :
    (row ((source, symbol), targets)).toList =
      source.toNat.repr.toList ++ '\t' :: symbol.toChar :: '\t' :: (targets.render.toList ++ ['\n']) := by
  simp [row, tableRow]

theorem ne_literal_of_mem {nfa : Nfa} {char : Char} (plain : ¬ nfa.HasLabel char) {entry : (StateId × Symbol) × StateSet}
    (listed : entry ∈ nfa.transitions.toList) : entry.1.2 ≠ .literal char := by
  obtain ⟨⟨source, symbol⟩, targets⟩ := entry
  rintro rfl
  obtain ⟨nonempty, rfl⟩ := TransitionTable.row?_eq_some_iff.mp (TransitionTable.mem_toList.mp listed)
  refine nonempty (Std.ExtTreeSet.eq_empty_iff_forall_not_mem.mpr fun target member => ?_)
  exact plain ⟨source, target, member⟩

/-- A row shows its own end, whatever its label looks like. -/
theorem row_inj {entry entry' : (StateId × Symbol) × StateSet} {s t : List Char}
    (plain : entry.1.2 ≠ .literal Symbol.epsilonSign) (plain' : entry'.1.2 ≠ .literal Symbol.epsilonSign)
    (same : (row entry).toList ++ s = (row entry').toList ++ t) : entry = entry' ∧ s = t := by
  obtain ⟨⟨source, symbol⟩, targets⟩ := entry
  obtain ⟨⟨source', symbol'⟩, targets'⟩ := entry'
  simp only [toList_row, List.append_assoc, List.cons_append, List.nil_append] at same
  obtain ⟨rfl, afterSource⟩ := legible_state.before same rfl
  -- The label is one character, so it is cut off before the next tab is looked for.
  obtain ⟨label, afterLabel⟩ := List.cons.inj afterSource
  obtain rfl : symbol = symbol' := Symbol.toChar_inj plain plain' label
  obtain ⟨rfl, rests⟩ := legible_render.before (List.cons.inj afterLabel).2 trivial
  exact ⟨rfl, rests⟩

theorem toList_table (nfa : Nfa) :
    nfa.table.toList =
      "NFA Transition Table:\n".toList ++ ("Start State: ".toList ++ (nfa.start.toNat.repr.toList ++ '\n' ::
        ("Accept State: ".toList ++ (nfa.accept.toNat.repr.toList ++ '\n' ::
          ((tableRow ["State", "Symbol", "Next States"]).toList ++
            nfa.transitions.toList.flatMap fun entry => (row entry).toList))))) := by
  have line : "\n".toList = ['\n'] := rfl
  unfold table
  simp only [String.toList_append, String.toList_join, List.flatMap_map, line, List.append_assoc, List.cons_append,
    List.nil_append]

/-- Tables that look the same show the same states and transitions, unless a literal looks
    like epsilon. -/
theorem table_inj {nfa nfa' : Nfa} (plain : ¬ nfa.HasLabel Symbol.epsilonSign)
    (plain' : ¬ nfa'.HasLabel Symbol.epsilonSign) (same : nfa.table = nfa'.table) :
    nfa.start = nfa'.start ∧ nfa.accept = nfa'.accept ∧ nfa.transitions = nfa'.transitions := by
  have text := congrArg String.toList same
  rw [toList_table, toList_table] at text
  obtain ⟨starts, text⟩ := legible_state.before (List.append_cancel_left (List.append_cancel_left text)) rfl
  obtain ⟨accepts, text⟩ := legible_state.before (List.append_cancel_left text) rfl
  have rows : nfa.transitions.toList = nfa'.transitions.toList := by
    refine flatMap_injective ?_ ?_ (List.append_cancel_left text)
    · rintro ⟨⟨source, symbol⟩, targets⟩
      rw [toList_row]
      simp
    · intro entry listed entry' listed' s t
      exact row_inj (ne_literal_of_mem plain listed) (ne_literal_of_mem plain' listed')
  exact ⟨starts, accepts, TransitionTable.toList_inj.mp rows⟩

end Nfa

/-! ## Deterministic automata -/

namespace Dfa

/-- What a row of a deterministic automaton shows: a transition and what its source
    stands for, if it was added. -/
structure Shown where
  source : StateId
  states : Option StateSet
  char : Char
  target : StateId

/-- What the row of a transition shows. -/
def shown (dfa : Dfa) (entry : (StateId × Char) × StateId) : Shown :=
  { source := entry.1.1, states := dfa.states? entry.1.1, char := entry.1.2, target := entry.2 }

/-- The text of a row. -/
def Shown.text (shown : Shown) : List Char :=
  (stateLabel shown.source).toList ++ '\t' :: (((shown.states.map StateSet.render).getD "").toList ++ '\t' ::
    shown.char :: '\t' :: ((stateLabel shown.target).toList ++ ['\n']))

theorem toList_row (dfa : Dfa) (entry : (StateId × Char) × StateId) :
    (dfa.row entry).toList = (dfa.shown entry).text := by
  simp [row, tableRow, shown, Shown.text]

theorem Shown.text_inj {left right : Shown} {s t : List Char} (same : left.text ++ s = right.text ++ t) :
    left = right ∧ s = t := by
  obtain ⟨source, states, char, target⟩ := left
  obtain ⟨source', states', char', target'⟩ := right
  simp only [text, List.append_assoc, List.cons_append, List.nil_append] at same
  obtain ⟨rfl, afterSource⟩ := legible_stateLabel.before same rfl
  obtain ⟨rfl, afterStates⟩ := legible_states.before afterSource (by decide)
  obtain ⟨rfl, afterChar⟩ := List.cons.inj afterStates
  obtain ⟨rfl, rests⟩ := legible_stateLabel.before (List.cons.inj afterChar).2 rfl
  exact ⟨rfl, rests⟩

theorem toList_table (dfa : Dfa) :
    dfa.table.toList =
      "DFA Transition Table:\n".toList ++ ("Start State: ".toList ++
        (((dfa.start.map stateLabel).getD "none").toList ++ '\n' ::
          ("Accept States: ".toList ++ (bracketed (fun state => (stateLabel state).toList) dfa.finals.toList ++ '\n' ::
            ((tableRow ["State", "NFA States", "Symbol", "Next State"]).toList ++
              (dfa.transitions.toList.map dfa.shown).flatMap Shown.text))))) := by
  have line : "\n".toList = ['\n'] := rfl
  have closing : "]\n" = "]" ++ "\n" := by decide
  have opening : "Accept States: [" = "Accept States: " ++ "[" := by decide
  have finals := toList_bracketed stateLabel dfa.finals.toList
  rw [String.toList_append, String.toList_append] at finals
  unfold table
  simp only [← finals, closing, opening, String.toList_append, String.toList_join, List.flatMap_map, toList_row, line,
    List.append_assoc, List.cons_append, List.nil_append]

/-- Tables that look the same show the same states and transitions, and the same sets for
    the sources of these. -/
theorem table_inj {dfa dfa' : Dfa} (same : dfa.table = dfa'.table) :
    dfa.start = dfa'.start ∧ dfa.finals = dfa'.finals ∧ dfa.transitions = dfa'.transitions ∧
      ∀ source char target, dfa.transition? source char = some target → dfa.states? source = dfa'.states? source := by
  have text := congrArg String.toList same
  rw [toList_table, toList_table] at text
  obtain ⟨starts, text⟩ := legible_start.before (List.append_cancel_left (List.append_cancel_left text)) rfl
  obtain ⟨finals, text⟩ := legible_finals.before (List.append_cancel_left text) trivial
  have rows : dfa.transitions.toList.map dfa.shown = dfa'.transitions.toList.map dfa'.shown := by
    refine flatMap_injective (fun shown => ?_) (fun _ _ _ _ _ _ => Shown.text_inj) (List.append_cancel_left text)
    simp [Shown.text]
  have transitions : dfa.transitions = dfa'.transitions := by
    have entries := congrArg (List.map fun shown : Shown => ((shown.source, shown.char), shown.target)) rows
    rw [List.map_map, List.map_map] at entries
    exact Std.ExtTreeMap.toList_inj.mp (by simpa [Function.comp_def, shown] using entries)
  refine ⟨starts, finals, transitions, fun source char target leads => ?_⟩
  have listed : ((source, char), target) ∈ dfa.transitions.toList :=
    Std.ExtTreeMap.mem_toList_iff_getElem?_eq_some.mpr leads
  rw [← transitions] at rows
  have same := List.map_inj_left.mp rows _ listed
  exact congrArg Shown.states same

end Dfa

/-- The table of an automaton determines all that it shows. For nondeterministic automata
    these are the start state, the accepting state and the transitions, unless a literal
    is written like epsilon. For deterministic automata these are the start state, the
    accepting states, the transitions and, for the source of each, whether it was added
    and what it stands for. What the labels are makes no difference. -/
theorem table_injective :
    (∀ nfa nfa' : Nfa, ¬ nfa.HasLabel 'ε' → ¬ nfa'.HasLabel 'ε' → nfa.table = nfa'.table →
      nfa.start = nfa'.start ∧ nfa.accept = nfa'.accept ∧ nfa.transitions = nfa'.transitions) ∧
    ∀ dfa dfa' : Dfa, dfa.table = dfa'.table →
      dfa.start = dfa'.start ∧ dfa.finals = dfa'.finals ∧ dfa.transitions = dfa'.transitions ∧
        ∀ source char target, dfa.transition? source char = some target → dfa.states? source = dfa'.states? source :=
  ⟨fun _ _ => Nfa.table_inj, fun _ _ => Dfa.table_inj⟩

/-- Labels that look like a break between fields and like the start of a list, in automata
    that differ only in what no table shows. -/
theorem table_injective_tab :
    let nfa : Nfa := (({} : Nfa.Builder).connectLiteral 0 '\t' 1).finish 0 1
    let nfa' : Nfa := { nfa with numStates := 2 }
    let dfa : Dfa := (({ alphabet := ∅ } : Dfa).addState ∅).2.addTransition 0 '[' 7
    let dfa' : Dfa := { dfa with alphabet := Alphabet.ofList ['['] }
    (¬ nfa.HasLabel 'ε' ∧ nfa.table = nfa'.table ∧ nfa.transitions = nfa'.transitions) ∧
      dfa.table = dfa'.table ∧ dfa.transitions = dfa'.transitions ∧ dfa.states? 0 = dfa'.states? 0 := by
  intro nfa nfa' dfa dfa'
  have plain : ¬ nfa.HasLabel 'ε' := by
    rintro ⟨source, target, edge⟩
    rcases TransitionTable.mem_insert.mp edge with same | none
    · exact absurd (Transition.mk.inj same).2.1 (by decide)
    · exact TransitionTable.not_mem_empty _ none
  have leads : dfa.transition? 0 '[' = some 7 := by
    rw [Dfa.transition?_addTransition]
    rfl
  have read := table_injective.1 nfa nfa' plain plain rfl
  have read' := table_injective.2 dfa dfa' rfl
  exact ⟨⟨plain, rfl, read.2.2⟩, rfl, read'.2.2.1, read'.2.2.2 0 '[' 7 leads⟩

end RegexCompiler
