import RegexCompiler.CommandLine

namespace RegexCompiler

namespace Text

/-! ## Blanks around a text -/

/-- No blank stands at either end of the text. -/
def Unpadded (text : List Char) : Prop :=
  (∀ c ∈ text.head?, isBlank c = false) ∧ ∀ c ∈ text.getLast?, isBlank c = false

instance (text : List Char) : Decidable (Unpadded text) :=
  @instDecidableAnd _ _ (Option.decidableForallMem _) (Option.decidableForallMem _)

theorem dropWhile_isBlank_append {padding text : List Char} (blank : ∀ c ∈ padding, isBlank c)
    (starts : ∀ c ∈ text.head?, isBlank c = false) : (padding ++ text).dropWhile isBlank = text := by
  rw [List.dropWhile_append_of_pos blank]
  cases text with
  | nil => rfl
  | cons c rest => exact List.dropWhile_cons_of_neg (by simp [starts c rfl])

/-- Trimming takes just the blanks around an unpadded text. -/
theorem trimBlank_append {before text after : List Char} (unpadded : Unpadded text)
    (blankBefore : ∀ c ∈ before, isBlank c) (blankAfter : ∀ c ∈ after, isBlank c) :
    trimBlank (before ++ text ++ after) = text := by
  cases text with
  -- With nothing between them, the blanks on both sides are all in front.
  | nil =>
    have gone : (before ++ after ++ []).dropWhile isBlank = [] :=
      dropWhile_isBlank_append (List.forall_mem_append.mpr ⟨blankBefore, blankAfter⟩) (by simp)
    rw [List.append_nil] at gone
    rw [trimBlank, List.append_nil, gone]
    rfl
  | cons c rest =>
    have fromStart : (before ++ (c :: rest ++ after)).dropWhile isBlank = c :: rest ++ after :=
      dropWhile_isBlank_append blankBefore unpadded.1
    have fromEnd : (after.reverse ++ (c :: rest).reverse).dropWhile isBlank = (c :: rest).reverse :=
      dropWhile_isBlank_append (fun c member => blankAfter c (List.mem_reverse.mp member))
        (by rw [List.head?_reverse]; exact unpadded.2)
    rw [trimBlank, List.append_assoc, fromStart, List.reverse_append, fromEnd, List.reverse_reverse]

/-! ## Bytes of a text -/

/-- The bytes of a text in UTF-8. -/
def encoded (text : List Char) : List UInt8 :=
  text.flatMap String.utf8EncodeChar

theorem fromUTF8?_encoded (text : List Char) :
    String.fromUTF8? (encoded text).toByteArray = some (String.ofList text) := by
  have valid : (encoded text).toByteArray.IsValidUTF8 := .intro text rfl
  rw [String.fromUTF8?, dif_pos valid]
  rfl

theorem fromUTF8?_eq_none {bytes : List UInt8} (none : ∀ text, encoded text ≠ bytes) :
    String.fromUTF8? bytes.toByteArray = .none := by
  refine dif_neg ?_
  rintro ⟨text, same⟩
  exact none text (List.toByteArray_inj.mp same).symm

theorem le_toNat_ofNat {value : Nat} (above : 128 ≤ value) (small : value < 256) : 128 ≤ (UInt8.ofNat value).toNat := by
  rw [UInt8.toNat_ofNat', Nat.mod_eq_of_lt small]
  exact above

/-- Outside of ASCII every byte of an encoding is above those of ASCII. -/
theorem le_of_mem_utf8EncodeChar {c : Char} (wide : 127 < c.toNat) {byte : UInt8}
    (member : byte ∈ String.utf8EncodeChar c) : 128 ≤ byte.toNat := by
  have notAscii : ¬ c.val.toNat ≤ 127 := Nat.not_le.mpr wide
  rw [String.utf8EncodeChar, if_neg notAscii] at member
  split at member
  · simp only [List.mem_cons, List.not_mem_nil, or_false] at member
    rcases member with rfl | rfl <;> exact le_toNat_ofNat (by omega) (by omega)
  · split at member
    · simp only [List.mem_cons, List.not_mem_nil, or_false] at member
      rcases member with rfl | rfl | rfl <;> exact le_toNat_ofNat (by omega) (by omega)
    · simp only [List.mem_cons, List.not_mem_nil, or_false] at member
      rcases member with rfl | rfl | rfl | rfl <;> exact le_toNat_ofNat (by omega) (by omega)

/-- Only the line feed has its byte in its encoding. -/
theorem eq_lineFeed_of_mem {c : Char} (member : 10 ∈ String.utf8EncodeChar c) : c = '\n' := by
  by_cases wide : 127 < c.toNat
  · have above := le_of_mem_utf8EncodeChar wide member
    exact absurd above (by decide)
  · have ascii : c.val.toNat ≤ 127 := Nat.not_lt.mp wide
    rw [String.utf8EncodeChar, if_pos ascii, List.mem_singleton] at member
    have value : 10 = c.val.toNat % 256 := by
      rw [← UInt8.toNat_ofNat', ← member]
      rfl
    rw [Nat.mod_eq_of_lt (by omega)] at value
    exact Char.ext (UInt32.toNat_inj.mp value.symm)

theorem lineFeed_not_mem_encoded {text : List Char} (oneLine : '\n' ∉ text) : 10 ∉ encoded text := by
  intro member
  obtain ⟨c, inside, byte⟩ := List.mem_flatMap.mp member
  exact oneLine (eq_lineFeed_of_mem byte ▸ inside)

end Text

/-! ## The first line -/

namespace CommandLine

/-- Input ends behind its first line, or goes on behind a line feed. -/
def EndsLine (rest : List UInt8) : Prop :=
  rest = [] ∨ ∃ tail, rest = 10 :: tail

theorem firstLine_append {line rest : List UInt8} (oneLine : 10 ∉ line) (ends : EndsLine rest) :
    firstLine (line ++ rest) = line := by
  have inside : ∀ byte ∈ line, decide (byte ≠ 10) = true := by
    intro byte member
    exact decide_eq_true fun same => oneLine (same ▸ member)
  have behind : rest.takeWhile (fun byte => decide (byte ≠ 10)) = [] := by
    rcases ends with rfl | ⟨tail, rfl⟩
    · rfl
    · exact List.takeWhile_cons_of_neg (by decide)
  rw [firstLine, List.takeWhile_append_of_pos inside, behind, List.append_nil]

theorem convertInput_typed {expression : String} {before after : List Char} {rest : List UInt8}
    (unpadded : Text.Unpadded expression.toList) (blankBefore : ∀ c ∈ before, Text.isBlank c)
    (blankAfter : ∀ c ∈ after, Text.isBlank c) (oneLine : '\n' ∉ before ++ expression.toList ++ after)
    (ends : EndsLine rest) :
    convertInput (Text.encoded (before ++ expression.toList ++ after) ++ rest) = convert expression := by
  have line := firstLine_append (Text.lineFeed_not_mem_encoded oneLine) ends
  have trimmed := Text.trimBlank_append unpadded blankBefore blankAfter
  simp only [convertInput, line, Text.fromUTF8?_encoded, String.toList_ofList, trimmed, String.ofList_toList]

/-- A run without arguments asks for an expression and then does what a run with that
    expression as its first argument does, whatever blanks are typed around it and
    whatever follows the line, be it text or not. If the line itself is no text, all that
    is shown is the question. -/
theorem run_typed (rest : List UInt8) (ends : EndsLine rest) :
    (∀ (expression : String) (before after : List Char), '\n' ∉ expression.toList → Text.Unpadded expression.toList →
      (∀ c ∈ before ++ after, Text.isBlank c ∧ c ≠ '\n') → ∀ (others : List String) (input : List UInt8),
        let typed := run [] (Text.encoded (before ++ expression.toList ++ after) ++ rest)
        let given := run (expression :: others) input
        typed.exitCode = given.exitCode ∧ typed.errors = given.errors ∧
          typed.output = "Enter regular expression: " ++ given.output) ∧
    ∀ line : List UInt8, 10 ∉ line → (∀ text, Text.encoded text ≠ line) →
      (run [] (line ++ rest)).exitCode = 1 ∧ (run [] (line ++ rest)).output = "Enter regular expression: " := by
  constructor
  · intro expression before after oneLine unpadded padding others input typed given
    have blankBefore : ∀ c ∈ before, Text.isBlank c := fun c member => (padding c (List.mem_append_left _ member)).1
    have blankAfter : ∀ c ∈ after, Text.isBlank c := fun c member => (padding c (List.mem_append_right _ member)).1
    have oneLine' : '\n' ∉ before ++ expression.toList ++ after := by
      intro member
      rcases List.mem_append.mp member with front | back
      · rcases List.mem_append.mp front with padded | inside
        · exact (padding _ (List.mem_append_left _ padded)).2 rfl
        · exact oneLine inside
      · exact (padding _ (List.mem_append_right _ back)).2 rfl
    have same := convertInput_typed unpadded blankBefore blankAfter oneLine' ends
    have asked : typed = { convert expression with output := prompt ++ (convert expression).output } := by
      simp only [typed, run, respond, same]
    rw [asked]
    exact ⟨rfl, rfl, rfl⟩
  · intro line oneLine none
    have undecoded := Text.fromUTF8?_eq_none none
    simp only [run, respond, convertInput, firstLine_append oneLine ends, undecoded]
    exact ⟨rfl, by decide⟩

/-- An ideographic space and a carriage return around `a|`, bytes that are no text behind
    it, and a line that breaks off within a character. -/
theorem run_typed_wide :
    Text.Unpadded "a|".toList ∧ EndsLine [10, 0xff] ∧
      (run [] [0xe3, 0x80, 0x80, 0x61, 0x7c, 0x0d, 10, 0xff]).exitCode = (run ["a|"] []).exitCode ∧
      (run [] [0xe3, 0x80, 0x80, 0x61, 0x7c, 0x0d, 10, 0xff]).errors = (run ["a|"] []).errors ∧
      (run [] [0xe3, 0x80, 0x80, 0x61, 0x7c, 0x0d, 10, 0xff]).output =
        "Enter regular expression: " ++ (run ["a|"] []).output ∧
      (run [] [0x61, 0xc3, 10, 0xff]).output = "Enter regular expression: " := by
  have ends : EndsLine [10, 0xff] := .inr ⟨[0xff], rfl⟩
  have unpadded : Text.Unpadded "a|".toList := by decide
  have broken (text : List Char) : Text.encoded text ≠ [0x61, 0xc3] := by
    intro same
    have invalid : ¬ ([0x61, 0xc3] : List UInt8).toByteArray.IsValidUTF8 := by decide +kernel
    exact invalid (same ▸ .intro text rfl)
  have padding : ∀ c ∈ ['\u3000'] ++ ['\r'], Text.isBlank c ∧ c ≠ '\n' := by
    simp only [List.mem_append, List.mem_singleton, forall_eq_or_imp, forall_eq]
    decide
  obtain ⟨exits, blames, shows⟩ := (run_typed _ ends).1 "a|" ['\u3000'] ['\r'] (by decide) unpadded padding [] []
  exact ⟨unpadded, ends, exits, blames, shows, ((run_typed _ ends).2 [0x61, 0xc3] (by decide) broken).2⟩

end CommandLine

end RegexCompiler
