import Mathlib.Data.List.Pairwise
import RegexCompiler.Proofs.Provenance
import RegexCompiler.Proofs.Reordering
import RegexCompiler.Proofs.Respelling

namespace RegexCompiler

/-- Whether the lexeme is a literal. -/
def Lexeme.isLiteral (lexeme : Lexeme) : Bool :=
  lexeme.token.literal?.isSome

theorem Lexeme.isKept_of_isLiteral {lexeme : Lexeme} (literal : lexeme.isLiteral = true) : lexeme.isKept = true := by
  cases token : lexeme.token <;> simp [isLiteral, isKept, token, Token.literal?, Token.isParen] at literal ⊢

theorem Lexeme.not_isLiteral_of_precedence {lexeme : Lexeme} (binds : 1 ≤ lexeme.token.precedence) :
    lexeme.isLiteral = false := by
  cases token : lexeme.token <;> simp [token, Token.precedence, isLiteral, Token.literal?] at binds ⊢

/-! ## What is listed before a literal -/

namespace Reordering

/-- The lexemes that were read and not left out, in no particular order. -/
def held (r : Reordering) : List Lexeme :=
  r.written.toList ++ r.waiting

/-- No literal waits, and what was written before a literal is related to it. -/
structure Defers (R : Lexeme → Lexeme → Prop) (r : Reordering) : Prop where
  waiting : ∀ top ∈ r.waiting, top.isLiteral = false
  written : r.written.toList.Pairwise fun earlier later => later.isLiteral = true → R earlier later

variable {R : Lexeme → Lexeme → Prop}

theorem Defers.write {r : Reordering} (defers : r.Defers R) {pending below : List Lexeme}
    (waits : r.waiting = pending ++ below) (waiting : List Lexeme)
    (remain : ∀ top ∈ waiting, top ∈ below ∨ top.isLiteral = false) :
    Defers R { written := r.written ++ pending, waiting := waiting } := by
  have noLiteral := defers.waiting
  rw [waits] at noLiteral
  have noLiteralPending : ∀ top ∈ pending, ¬ top.isLiteral = true := fun top member =>
    Bool.eq_false_iff.mp (noLiteral top (List.mem_append_left _ member))
  constructor
  · intro top member
    rcases remain top member with inBelow | other
    · exact noLiteral top (List.mem_append_right _ inBelow)
    · exact other
  · rw [Array.toList_appendList, List.pairwise_append]
    refine ⟨defers.written, List.pairwise_of_forall_mem_list ?_, ?_⟩
    · intro _ _ later member literal
      exact absurd literal (noLiteralPending later member)
    · intro _ _ later member literal
      exact absurd literal (noLiteralPending later member)

/-- A step keeps to what was held before and its lexeme, and writes a literal
    only behind what was held before. -/
theorem step_defers {r after : Reordering} {lexeme : Lexeme} (defers : r.Defers R)
    (ahead : ∀ earlier ∈ r.held, R earlier lexeme) (passed : r.step lexeme = .ok after) :
    after.Defers R ∧ ∀ member ∈ after.held, member ∈ r.held ∨ member = lexeme := by
  rcases step_cases passed with ⟨char, token, rfl⟩ | ⟨token, rfl⟩ | ⟨token, closed⟩ | ⟨token, rfl⟩
  · refine ⟨⟨defers.waiting, ?_⟩, fun member => ?_⟩
    · rw [Array.toList_push, List.pairwise_append]
      refine ⟨defers.written, List.pairwise_singleton _ _, fun earlier written later last _ => ?_⟩
      rw [List.mem_singleton.mp last]
      exact ahead earlier (List.mem_append_left _ written)
    · simp only [held, Array.toList_push, List.mem_append, List.mem_singleton]
      exact or_right_comm.mp
  · refine ⟨⟨fun top member => ?_, defers.written⟩, fun member => ?_⟩
    · rcases List.mem_cons.mp member with rfl | below
      · simp [Lexeme.isLiteral, token, Token.literal?]
      · exact defers.waiting top below
    · simp only [held, List.mem_append, List.mem_cons]
      grind
  · obtain ⟨pending, opening, below, waits, _, _, rfl⟩ := closeGroup_cases closed
    refine ⟨defers.write waits _ fun top member => .inl (List.mem_cons_of_mem _ member), fun member => ?_⟩
    simp only [held, waits, Array.toList_appendList, List.mem_append, List.mem_cons]
    grind
  · have isOperator : 1 ≤ lexeme.token.precedence := by
      rcases token with token | token | token <;> rw [token] <;> decide
    obtain ⟨pending, below, waits, _, _, result⟩ := enqueue_cases lexeme r
    rw [result]
    refine ⟨defers.write waits _ fun top member => ?_, fun member => ?_⟩
    · rcases List.mem_cons.mp member with rfl | inBelow
      · exact .inr (Lexeme.not_isLiteral_of_precedence isOperator)
      · exact .inl inBelow
    · simp only [held, waits, Array.toList_appendList, List.mem_append, List.mem_cons]
      grind

theorem foldlM_defers {lexemes : List Lexeme} (ordered : lexemes.Pairwise R) {r after : Reordering}
    (defers : r.Defers R) (ahead : ∀ earlier ∈ r.held, ∀ later ∈ lexemes, R earlier later)
    (passed : lexemes.foldlM step r = .ok after) : after.Defers R := by
  induction lexemes generalizing r with
  | nil =>
    cases passed
    exact defers
  | cons lexeme rest ih =>
    obtain ⟨between, first, others⟩ := foldlM_cons_eq_ok_iff.mp passed
    obtain ⟨before, orderedRest⟩ := List.pairwise_cons.mp ordered
    obtain ⟨defers', holds⟩ := step_defers defers (fun earlier held => ahead earlier held lexeme (.head _)) first
    refine ih orderedRest defers' (fun earlier held later member => ?_) others
    rcases holds earlier held with old | rfl
    · exact ahead earlier old later (.tail _ member)
    · exact before later member

end Reordering

/-- What relates every lexeme of a sequence to the later ones relates what is
    listed before a literal to the literal. -/
theorem toPostfix_pairwise {R : Lexeme → Lexeme → Prop} {lexemes output : List Lexeme} (ordered : lexemes.Pairwise R)
    (reordered : toPostfix lexemes = .ok output) :
    output.Pairwise fun earlier later => later.isLiteral = true → R earlier later := by
  obtain ⟨after, passed, finished⟩ := bind_eq_ok_iff.mp reordered
  have defers := Reordering.foldlM_defers ordered ⟨by simp, .nil⟩ (by simp [Reordering.held]) passed
  have written := (defers.write (List.append_nil _).symm [] (by simp)).written
  rw [Array.toList_appendList] at written
  rw [Reordering.finish] at finished
  split at finished
  · cases finished
  · cases finished
    exact written

/-! ## Numbered sequences -/

/-- The lexemes of a sequence, each at its index. -/
def numbered (lexemes : List Lexeme) : List Lexeme :=
  lexemes.mapIdx fun index lexeme => ⟨lexeme.token, index⟩

/-- A numbered lexeme at the position it has in the sequence. -/
def replaced (lexemes : List Lexeme) (lexeme : Lexeme) : Lexeme :=
  ⟨lexeme.token, (lexemes[lexeme.position]?.map (·.position)).getD lexeme.position⟩

section

variable {lexemes : List Lexeme}

theorem getElem?_of_mem_numbered {lexeme : Lexeme} (member : lexeme ∈ numbered lexemes) :
    lexemes[lexeme.position]? = some (replaced lexemes lexeme) := by
  obtain ⟨index, inside, rfl⟩ := List.mem_mapIdx.mp member
  simp [replaced, List.getElem?_eq_getElem inside]

theorem map_replaced_numbered (lexemes : List Lexeme) : (numbered lexemes).map (replaced lexemes) = lexemes := by
  refine List.ext_getElem? fun index => ?_
  rw [List.getElem?_map, numbered, List.getElem?_mapIdx]
  cases found : lexemes[index]? with
  | none => rfl
  | some lexeme => simp [replaced, found]

theorem ascending_numbered (lexemes : List Lexeme) : (numbered lexemes).Pairwise (·.position < ·.position) := by
  rw [List.pairwise_iff_getElem]
  intro index index' inside inside' less
  simpa [numbered] using less

theorem filter_isLiteral_map_replaced (lexemes listed : List Lexeme) :
    (listed.map (replaced lexemes)).filter Lexeme.isLiteral = (listed.filter Lexeme.isLiteral).map (replaced lexemes) :=
  List.filter_map

theorem exists_toPostfix_numbered {output : List Lexeme} (reordered : toPostfix lexemes = .ok output) :
    ∃ listed, toPostfix (numbered lexemes) = .ok listed ∧ output = listed.map (replaced lexemes) := by
  have same := toPostfix_relocate (fun index => (lexemes[index]?.map (·.position)).getD index) (numbered lexemes)
  have replaces : (numbered lexemes).map (.relocate fun index => (lexemes[index]?.map (·.position)).getD index) =
      lexemes := map_replaced_numbered lexemes
  rw [replaces, reordered] at same
  cases result : toPostfix (numbered lexemes) with
  | error error =>
    rw [result] at same
    cases same
  | ok listed =>
    rw [result] at same
    exact ⟨listed, rfl, (Except.ok.inj same).symm⟩

variable {listed : List Lexeme} (reordered : toPostfix (numbered lexemes) = .ok listed)
include reordered

theorem mem_numbered_of_toPostfix {lexeme : Lexeme} (member : lexeme ∈ listed) : lexeme ∈ numbered lexemes :=
  (List.mem_filter.mp ((toPostfix_perm reordered).mem_iff.mp member)).1

theorem nodup_position_of_toPostfix : (listed.map (·.position)).Nodup := by
  rw [((toPostfix_perm reordered).map _).nodup_iff, List.Nodup, List.pairwise_map]
  exact ((ascending_numbered lexemes).filter _).imp Nat.ne_of_lt

theorem mem_position_iff_of_toPostfix {index : Nat} :
    index ∈ listed.map (·.position) ↔ ∃ lexeme ∈ lexemes[index]?, lexeme.isKept = true := by
  rw [((toPostfix_perm reordered).map _).mem_iff, List.mem_map]
  constructor
  · rintro ⟨lexeme, member, rfl⟩
    obtain ⟨member, keeps⟩ := List.mem_filter.mp member
    exact ⟨_, getElem?_of_mem_numbered member, keeps⟩
  · rintro ⟨lexeme, found, keeps⟩
    obtain ⟨inside, rfl⟩ := List.getElem?_eq_some_iff.mp found
    exact ⟨⟨lexemes[index].token, index⟩, List.mem_filter.mpr ⟨List.mem_mapIdx.mpr ⟨index, inside, rfl⟩, keeps⟩, rfl⟩

theorem filter_isLiteral_of_toPostfix : listed.filter Lexeme.isLiteral = (numbered lexemes).filter Lexeme.isLiteral := by
  have perm := (toPostfix_perm reordered).filter Lexeme.isLiteral
  rw [List.filter_filter] at perm
  have literals : ∀ lexeme ∈ numbered lexemes, (lexeme.isLiteral && lexeme.isKept) = lexeme.isLiteral := by
    intro lexeme _
    rw [Bool.and_eq_left_iff_imp]
    exact Lexeme.isKept_of_isLiteral
  rw [List.filter_congr literals] at perm
  refine List.Perm.eq_of_pairwise (fun _ _ _ _ less greater => absurd less (Nat.lt_asymm greater)) ?_
    ((ascending_numbered lexemes).filter _) perm
  rw [List.pairwise_filter]
  exact (toPostfix_pairwise (ascending_numbered lexemes) reordered).imp fun related _ literal => related literal

end

/-- The output lists the lexemes of a sequence at the indices `order`: each of
    them once but no parenthesis, and before a literal only what stands before
    it. -/
structure Rearranges (lexemes output : List Lexeme) (order : List Nat) : Prop where
  listed : order.map (lexemes[·]?) = output.map some
  nodup : order.Nodup
  mem_iff : ∀ index, index ∈ order ↔ ∃ lexeme ∈ lexemes[index]?, lexeme.isKept = true
  before_literal : order.Pairwise fun index index' =>
    (∃ lexeme ∈ lexemes[index']?, lexeme.isLiteral = true) → index < index'

theorem rearranges_numbered {lexemes listed : List Lexeme} (reordered : toPostfix (numbered lexemes) = .ok listed) :
    Rearranges lexemes (listed.map (replaced lexemes)) (listed.map (·.position)) where
  listed := by
    rw [List.map_map, List.map_map]
    exact List.map_congr_left fun lexeme member => getElem?_of_mem_numbered (mem_numbered_of_toPostfix reordered member)
  nodup := nodup_position_of_toPostfix reordered
  mem_iff _ := mem_position_iff_of_toPostfix reordered
  before_literal := by
    rw [List.pairwise_map]
    refine (toPostfix_pairwise (ascending_numbered lexemes) reordered).imp_of_mem ?_
    rintro earlier later _ member related ⟨lexeme, found, literal⟩
    have same := getElem?_of_mem_numbered (mem_numbered_of_toPostfix reordered member)
    obtain rfl := Option.some.inj (found.symm.trans same)
    exact related literal

/-- What reordering lists of any sequence: all lexemes but the parentheses, where
    they stand, each once; the literals in the order of the sequence, and no
    operator before a literal that precedes it. -/
theorem toPostfix_order {lexemes output : List Lexeme} (reordered : toPostfix lexemes = .ok output) :
    output.Perm (lexemes.filter (!·.token.isParen)) ∧
      (∀ lexeme ∈ output, lexeme.token.isParen = false) ∧
      output.filter (·.token.literal?.isSome) = lexemes.filter (·.token.literal?.isSome) ∧
      ∃ order : List Nat, Rearranges lexemes output order := by
  have kept := toPostfix_perm reordered
  refine ⟨kept, fun lexeme member => ?_, ?_⟩
  · have keeps := (List.mem_filter.mp (kept.mem_iff.mp member)).2
    simpa [Lexeme.isKept] using keeps
  · obtain ⟨listed, reordered', rfl⟩ := exists_toPostfix_numbered reordered
    refine ⟨?_, _, rearranges_numbered reordered'⟩
    have literals := filter_isLiteral_map_replaced lexemes listed
    rw [filter_isLiteral_of_toPostfix reordered', ← filter_isLiteral_map_replaced, map_replaced_numbered] at literals
    exact literals

/-- An operator without operands is listed behind the literals that follow it. -/
theorem toPostfix_order_misplaced :
    ∃ order, Rearranges [⟨.star, 4⟩, ⟨.literal 'a', 4⟩, ⟨.leftParen, 0⟩, ⟨.concat, 4⟩, ⟨.literal 'b', 1⟩,
        ⟨.rightParen, 0⟩, ⟨.literal 'a', 4⟩]
      [⟨.literal 'a', 4⟩, ⟨.literal 'b', 1⟩, ⟨.concat, 4⟩, ⟨.literal 'a', 4⟩, ⟨.star, 4⟩] order :=
  (toPostfix_order rfl).2.2.2

end RegexCompiler
