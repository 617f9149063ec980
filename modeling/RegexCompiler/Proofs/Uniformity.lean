import RegexCompiler.Proofs.Overflow
import RegexCompiler.Proofs.Respelling

namespace RegexCompiler

/-- Different characters stay different, and those that are operators or parentheses
    stay what they are. -/
structure KeepsRoles (char : Char → Char) : Prop where
  injective : Function.Injective char
  alternation : char '|' = '|'
  star : char '*' = '*'
  leftParen : char '(' = '('
  rightParen : char ')' = ')'
  concat : char Token.concatSign = Token.concatSign

namespace KeepsRoles

variable {char : Char → Char} (keeps : KeepsRoles char)
include keeps

theorem ofChar_map (c : Char) : Token.ofChar (char c) = (Token.ofChar c).rename char := by
  have fixed {sign : Char} (stays : char sign = sign) : char c = sign ↔ c = sign := by
    constructor
    · intro same
      exact keeps.injective (same.trans stays.symm)
    · rintro rfl
      exact stays
  simp only [Token.ofChar, fixed keeps.alternation, fixed keeps.star, fixed keeps.leftParen, fixed keeps.rightParen,
    fixed keeps.concat]
  split_ifs <;> rfl

theorem ofChars_map (start : Nat) (text : List Char) :
    Lexeme.ofChars start (text.map char) = (Lexeme.ofChars start text).map (.respell char id) := by
  induction text generalizing start with
  | nil => rfl
  | cons c rest ih =>
    rw [List.map_cons, Lexeme.ofChars, Lexeme.ofChars, List.map_cons, ih, keeps.ofChar_map]
    rfl

theorem expand_map (expression : String) :
    expand (expression.map char) = (expand expression).map (.respell char id) := by
  rw [expand, expand, String.toList_map, keeps.ofChars_map]
  exact Lexeme.joinAfter_respell char id none _

theorem ofExpression_map (expression : String) :
    Alphabet.ofExpression (expression.map char) = (Alphabet.ofExpression expression).image char := by
  have literals (text : List Char) : (text.map char).filterMap (fun c => (Token.ofChar c).literal?) =
      (text.filterMap fun c => (Token.ofChar c).literal?).map char := by
    rw [List.filterMap_map, List.map_filterMap]
    refine List.filterMap_congr fun c _ => ?_
    rw [Function.comp_apply, keeps.ofChar_map, Token.literal?_rename]
  refine Std.ExtTreeSet.ext_mem fun c => ?_
  simp only [Alphabet.ofExpression, String.toList_map, literals, Alphabet.mem_image, Alphabet.mem_ofList, List.mem_map]

/-- With other literals an expression is compiled to the same automaton but for the
    labels, or to the same error. -/
theorem compile_map (expression : String) :
    compile (expression.map char) = (compile expression).map (.relabel char) := by
  have same := compile_respell char id expression
  have unmoved : ((compile expression).map (Compiled.relabel char)).mapError (.relocate id) =
      (compile expression).map (.relabel char) := by
    cases compile expression with
    | error error => exact congrArg Except.error error.relocate_id
    | ok compiled => rfl
  rw [← unmoved, same, compile_eq, keeps.expand_map, keeps.ofExpression_map]

end KeepsRoles

/-- In the order of their images, the characters are those of the other alphabet. -/
theorem Alphabet.toList_image {char : Char → Char} {alphabet : Alphabet}
    (ascends : ∀ c ∈ alphabet, ∀ c' ∈ alphabet, c < c' → char c < char c') :
    (alphabet.image char).toList = alphabet.toList.map char := by
  refine List.Pairwise.eq_of_mem_iff (alphabet.image char).ascending_toList ?_ fun c => by simp
  rw [List.pairwise_map]
  refine alphabet.ascending_toList.imp_of_mem fun member member' less => ?_
  exact ascends _ (Std.ExtTreeSet.mem_toList.mp member) _ (Std.ExtTreeSet.mem_toList.mp member') less

/-- With labels in the same order, the deterministic automaton stays as it is but for
    its labels. -/
theorem Compiled.mirrors_relabel {char : Char → Char} (chars : Function.Injective char) (compiled : Compiled)
    (ascends : ∀ c ∈ compiled.alphabet, ∀ c' ∈ compiled.alphabet, c < c' → char c < char c') :
    compiled.dfa.Mirrors id char (compiled.relabel char).dfa := by
  have renames := Nfa.renames_rename id char compiled.nfa.numStates compiled.nfa
  refine renames.toDfa Function.injective_id chars (fun _ => true) (fun _ => true) ?_ ?_ ?_
  -- No character is left out.
  · exact fun _ _ never => Bool.noConfusion never
  · exact fun _ _ never => Bool.noConfusion never
  · rw [List.filter_true, List.filter_true]
    exact Alphabet.toList_image ascends

/-- Literals may be put in place of each other. An expression is then compiled to an
    automaton with the other labels and otherwise the same states and transitions, or
    to the same error at the same place, and a word is accepted exactly when the word
    with the other characters is. The deterministic automaton has as many states, and
    accepts accordingly as long as their numbers do not run out. If the order of the
    literals stays the same, so does all of it but the labels. -/
theorem compile_uniform {char : Char → Char} (keeps : KeepsRoles char) (expression : String) :
    (∀ error, compile (expression.map char) = .error error ↔ compile expression = .error error) ∧
    ∀ compiled, compile expression = .ok compiled →
      ∃ compiled', compile (expression.map char) = .ok compiled' ∧
        compiled'.nfa = compiled.nfa.rename id char compiled.nfa.numStates ∧
        (∀ c, c ∈ compiled'.alphabet ↔ ∃ c' ∈ compiled.alphabet, char c' = c) ∧
        (∀ word, compiled'.nfa.accepts (word.map char) = compiled.nfa.accepts word) ∧
        (compiled.dfa.sets.size ≤ UInt32.size →
          ∀ word, compiled'.dfa.accepts (word.map char) = compiled.dfa.accepts word) ∧
        compiled'.dfa.numStates = compiled.dfa.numStates ∧
        ((∀ c ∈ compiled.alphabet, ∀ c' ∈ compiled.alphabet, c < c' → char c < char c') →
          compiled'.dfa.start = compiled.dfa.start ∧ compiled'.dfa.finals = compiled.dfa.finals ∧
          compiled'.dfa.sets = compiled.dfa.sets ∧
          (∀ source c target, compiled'.dfa.transition? source c = some target ↔
            ∃ c', char c' = c ∧ compiled.dfa.transition? source c' = some target) ∧
          ∀ word, compiled'.dfa.accepts (word.map char) = compiled.dfa.accepts word) := by
  refine ⟨fun error => ?_, fun compiled compiles => ⟨compiled.relabel char, ?_, rfl, fun c => Alphabet.mem_image, ?_⟩⟩
  · rw [keeps.compile_map]
    cases compile expression <;> simp [Except.map]
  · rw [keeps.compile_map, compiles]
    rfl
  · have renames := Nfa.renames_rename id char compiled.nfa.numStates compiled.nfa
    have states : Function.Injective (id : StateId → StateId) := Function.injective_id
    have listed (c : Char) : c ∈ (compiled.relabel char).alphabet ↔ ∃ c' ∈ compiled.alphabet, char c' = c :=
      Alphabet.mem_image
    refine ⟨renames.accepts_map states keeps.injective, ?_, ?_, fun ascends => ?_⟩
    · exact renames.accepts_toDfa_map states keeps.injective listed
    · exact congrArg UInt32.ofNat (renames.size_sets_toDfa states keeps.injective listed)
    · have mirrors := compiled.mirrors_relabel keeps.injective ascends
      have sets : (compiled.relabel char).dfa.sets = compiled.dfa.sets := by simp [mirrors.sets_eq]
      exact ⟨mirrors.start_eq, mirrors.finals_eq, sets, mirrors.transition?_iff, mirrors.accepts_map keeps.injective⟩

/-- The sign of a move without reading may take the place of a literal. -/
theorem compile_uniform_sign :
    compile "aε(" = .error (.malformed 2 .unmatchedLeftParen) ∧
    ∃ compiled compiled', compile "ab*" = .ok compiled ∧ compile "aε*" = .ok compiled' ∧
      compiled'.nfa.accepts ['a', 'ε', 'ε'] = true ∧ compiled'.dfa.accepts ['a', 'ε', 'ε'] = true ∧
      compiled'.dfa.numStates = 3 ∧ compiled'.dfa.finals.toList = [1, 2] := by
  have keeps : KeepsRoles (Equiv.swap 'b' 'ε') := ⟨Equiv.injective _, rfl, rfl, rfl, rfl, rfl⟩
  obtain ⟨fails, _⟩ := compile_uniform keeps "ab("
  obtain ⟨_, succeeds⟩ := compile_uniform keeps "ab*"
  have parses : Parses .expression 0 "ab*".toList (.concat 1 (.literal 'a' 0) (.star 2 (.literal 'b' 1))) :=
    .ofTerm (.juxtaposition (.ofFactor (.ofAtom (.literal rfl))) (.star (.ofAtom (.literal rfl))))
  have compiles := compile_of_parses parses
  obtain ⟨compiled', compiles', _, _, accepts, acceptsDfa, count, order⟩ := succeeds _ compiles
  have ascends : ∀ c ∈ Alphabet.ofExpression "ab*", ∀ c' ∈ Alphabet.ofExpression "ab*", c < c' →
      Equiv.swap 'b' 'ε' c < Equiv.swap 'b' 'ε' c' := by
    have literals : Alphabet.ofExpression "ab*" = .ofList ['a', 'b'] := rfl
    rw [literals]
    simp [Equiv.swap_apply_def]
  have spelled : "ab(".map (Equiv.swap 'b' 'ε') = "aε(" := by cbv
  have spelled' : "ab*".map (Equiv.swap 'b' 'ε') = "aε*" := by cbv
  have failed : compile "ab(" = .error (.malformed 2 .unmatchedLeftParen) := rfl
  rw [← spelled, ← spelled']
  refine ⟨(fails _).mpr failed, _, compiled', compiles, compiles', ?_, ?_, ?_, ?_⟩
  · exact (accepts ['a', 'b', 'b']).trans (by cbv)
  · exact (acceptsDfa (by cbv) ['a', 'b', 'b']).trans (by cbv)
  · exact count.trans (by cbv)
  · rw [(order ascends).2.1]
    cbv

/-- Signs of the places in words of 31 letters. -/
def Recall.signs : List Char :=
  ['2', '3', '4', '5', '6', 'A', 'B', 'C', 'D', 'E', 'F', 'G', 'H', 'I', 'J', 'K', 'L', 'M', 'N', 'O', 'P', 'Q', 'R',
    'S', 'T', 'U', 'V', 'W', 'X', 'Y', 'Z']

/-- Where the numbers of the deterministic automaton run out, what it accepts depends on
    the order of the literals. -/
theorem compile_uniform_overflow :
    let expression := String.ofList (Recall.text '1' '0' Recall.signs)
    KeepsRoles (Equiv.swap '0' '1') ∧
    ∃ compiled compiled', compile expression = .ok compiled ∧
      compile (expression.map (Equiv.swap '0' '1')) = .ok compiled' ∧
      compiled.dfa.accepts [] = false ∧ compiled'.dfa.accepts ([].map (Equiv.swap '0' '1')) = true := by
  intro expression
  have swapped : expression.map (Equiv.swap '0' '1') = String.ofList (Recall.text '0' '1' Recall.signs) := by
    rw [← String.toList_inj, String.toList_map, String.toList_ofList, String.toList_ofList]
    refine Recall.text_map ?_ '1' '0' ?_ <;> simp [Recall.signs, Equiv.swap_apply_def]
  have plain : ∀ sign ∈ '0' :: '1' :: Recall.signs, Token.ofChar sign = .literal sign := by
    simp [Recall.signs, Token.ofChar, Token.concatSign]
  have ascending : ('0' :: '1' :: (Recall.signs ++ ['a', 'b', 'c'])).Pairwise (· < ·) := by decide
  obtain ⟨compiled, compiles, rejects⟩ := Recall.accepts_nil_iff (.swap '1' '0' []) rfl plain ascending
  obtain ⟨compiled', compiles', accepts⟩ := Recall.accepts_nil_iff (.refl ['0', '1']) rfl plain ascending
  rw [swapped]
  refine ⟨⟨Equiv.injective _, rfl, rfl, rfl, rfl, rfl⟩, compiled, compiled', compiles, compiles', ?_, ?_⟩
  · rw [← Bool.not_eq_true, rejects]
    decide
  · exact accepts.mpr rfl

end RegexCompiler
