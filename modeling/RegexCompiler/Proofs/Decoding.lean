import RegexCompiler.Proofs.Provenance
import RegexCompiler.Proofs.Rendering

namespace RegexCompiler

/-! ## Postorders -/

namespace PlacedTree

/-- Takes a lexeme of a postorder in: an operator joins the trees on top of the
    stack. -/
def replay (stack : List PlacedTree) (lexeme : Lexeme) : List PlacedTree :=
  match lexeme.token, stack with
  | .literal char, rest => .literal char lexeme.position :: rest
  | .concat, second :: first :: rest => .concat lexeme.position first second :: rest
  | .alternation, right :: left :: rest => .alternation lexeme.position left right :: rest
  | .star, inner :: rest => .star lexeme.position inner :: rest
  | _, rest => rest

/-- Replaying a postorder puts its tree on the stack. -/
theorem replay_postorder (t : PlacedTree) (stack : List PlacedTree) :
    t.postorder.foldl replay stack = t :: stack := by
  induction t generalizing stack with
  | literal char position => rfl
  | concat position first second ihFirst ihSecond =>
    simp only [postorder, List.foldl_append, ihFirst, ihSecond]
    rfl
  | alternation position left right ihLeft ihRight =>
    simp only [postorder, List.foldl_append, ihLeft, ihRight]
    rfl
  | star position inner ih =>
    simp only [postorder, List.foldl_append, ih]
    rfl

theorem postorder_injective {t t' : PlacedTree} (same : t.postorder = t'.postorder) : t = t' := by
  have replayed := congrArg (·.foldl replay []) same
  simp only [replay_postorder] at replayed
  exact (List.cons.inj replayed).1

end PlacedTree

namespace Tree

/-- The expression with all its parts at one place. -/
def place : Tree → PlacedTree
  | .literal char => .literal char 0
  | .concat first second => .concat 0 first.place second.place
  | .alternation left right => .alternation 0 left.place right.place
  | .star inner => .star 0 inner.place

@[simp] theorem tree_place (t : Tree) : t.place.tree = t := by
  induction t with
  | literal => rfl
  | concat _ _ ih ih' | alternation _ _ ih ih' => rw [place, PlacedTree.tree, ih, ih']
  | star _ ih => rw [place, PlacedTree.tree, ih]

theorem postorder_place (t : Tree) : t.place.postorder = t.postorder.map (⟨·, 0⟩) := by
  induction t with
  | literal => rfl
  | concat _ _ ih ih' | alternation _ _ ih ih' => simp [place, PlacedTree.postorder, postorder, ih, ih']
  | star _ ih => simp [place, PlacedTree.postorder, postorder, ih]

theorem postorder_injective {t t' : Tree} (same : t.postorder = t'.postorder) : t = t' := by
  have placed : t.place = t'.place := by
    apply PlacedTree.postorder_injective
    rw [postorder_place, postorder_place, same]
  rw [← tree_place t, placed, tree_place]

end Tree

/-- An expression has only one tree. -/
theorem Parses.unique {expression : String} {t t' : PlacedTree} (parses : Parses .expression 0 expression.toList t)
    (parses' : Parses .expression 0 expression.toList t') : t = t' := by
  have reordered := toPostfix_expand parses
  rw [toPostfix_expand parses'] at reordered
  exact PlacedTree.postorder_injective (Except.ok.inj reordered).symm

/-! ## Postfix texts -/

/-- The token is the one that its character is read as. -/
def Token.IsWritten (token : Token) : Prop :=
  Token.ofChar token.toChar = token

theorem Token.eq_of_map_toChar {tokens tokens' : List Token} (written : ∀ token ∈ tokens, token.IsWritten)
    (written' : ∀ token ∈ tokens', token.IsWritten) (same : tokens.map toChar = tokens'.map toChar) :
    tokens = tokens' := by
  have readBack {tokens : List Token} (written : ∀ token ∈ tokens, token.IsWritten) :
      (tokens.map toChar).map ofChar = tokens := by
    rw [List.map_map]
    exact (List.map_congr_left written).trans (List.map_id' tokens)
  rw [← readBack written, same, readBack written']

theorem Tree.isWritten_of_mem_postorder {t : Tree}
    (literals : ∀ char ∈ t.literals, Token.ofChar char = .literal char) {token : Token}
    (member : token ∈ t.postorder) : token.IsWritten := by
  induction t with
  | literal char =>
    obtain rfl := List.mem_singleton.mp member
    exact literals char (.head _)
  | concat first second ih ih' | alternation first second ih ih' =>
    rcases List.mem_append.mp member with operand | operator
    · rcases List.mem_append.mp operand with inFirst | inSecond
      · exact ih (fun char listed => literals char (List.mem_append_left _ listed)) inFirst
      · exact ih' (fun char listed => literals char (List.mem_append_right _ listed)) inSecond
    · obtain rfl := List.mem_singleton.mp operator
      rfl
  | star inner ih =>
    rcases List.mem_append.mp member with operand | operator
    · exact ih literals operand
    · obtain rfl := List.mem_singleton.mp operator
      rfl

namespace Parses

theorem postfixOf_eq {expression : String} {t : PlacedTree} (parses : Parses .expression 0 expression.toList t) :
    postfixOf expression = .ok (Lexeme.render t.postorder) := by
  rw [postfixOf, toPostfix_expand parses]
  rfl

theorem postfixOf_eq_iff {expression expression' : String} {t t' : PlacedTree}
    (parses : Parses .expression 0 expression.toList t) (parses' : Parses .expression 0 expression'.toList t') :
    postfixOf expression = postfixOf expression' ↔ t.tree = t'.tree := by
  have text (t : PlacedTree) : Lexeme.render t.postorder = String.ofList (t.tree.postorder.map Token.toChar) := by
    rw [← PlacedTree.map_token_postorder, List.map_map]
    rfl
  rw [parses.postfixOf_eq, parses'.postfixOf_eq, text, text]
  constructor
  · intro same
    have texts := String.ofList_injective (Except.ok.inj same)
    refine Tree.postorder_injective (Token.eq_of_map_toChar ?_ ?_ texts)
    · exact fun token member => Tree.isWritten_of_mem_postorder (fun char listed => (parses.mem_of_literal listed).2) member
    · exact fun token member => Tree.isWritten_of_mem_postorder (fun char listed => (parses'.mem_of_literal listed).2) member
  · intro same
    rw [same]

/-! ## Alphabets -/

theorem alphabet_eq {expression : String} {t : PlacedTree} (parses : Parses .expression 0 expression.toList t) :
    Alphabet.ofExpression expression = Alphabet.ofList t.tree.literals := by
  rw [parses.literals_eq]
  rfl

end Parses

/-! ## Expressions that compile -/

/-- The postfix form of an expression that compiles is the postorder of its only
    tree, each lexeme at its own place. Postfix texts are equal exactly when the
    trees are, and then so are the automata and alphabets. -/
theorem compile_postfix {expression : String} {compiled : Compiled} (compiles : compile expression = .ok compiled) :
    ∃ t, Parses .expression 0 expression.toList t ∧
      (∀ t', Parses .expression 0 expression.toList t' → t' = t) ∧
      toPostfix (expand expression) = .ok t.postorder ∧
      (∀ lexeme ∈ t.postorder, lexeme.StandsIn expression.toList) ∧
      postfixOf expression = .ok (Lexeme.render t.postorder) ∧
      ∀ expression' compiled' t', compile expression' = .ok compiled' →
        Parses .expression 0 expression'.toList t' →
          (postfixOf expression' = postfixOf expression ↔ t'.tree = t.tree) ∧
            (t'.tree = t.tree → compiled' = compiled) := by
  obtain ⟨t, parses⟩ := parses_of_compile compiles
  refine ⟨t, parses, fun t' parses' => parses'.unique parses, toPostfix_expand parses, ?_, parses.postfixOf_eq, ?_⟩
  · intro lexeme member
    exact standsIn_of_mem_postfix (toPostfix_expand parses) member
  · intro expression' compiled' t' compiles' parses'
    refine ⟨parses'.postfixOf_eq_iff parses, fun same => ?_⟩
    have built := compile_of_parses parses
    have built' := compile_of_parses parses'
    rw [compiles, parses.alphabet_eq, Except.ok.injEq] at built
    rw [compiles', parses'.alphabet_eq, same, Except.ok.injEq] at built'
    rw [built, built']

/-- Two ways to write the same expression. -/
theorem compile_postfix_star :
    ∃ compiled, compile "ab*" = .ok compiled ∧ compile "(a)·(b*)" = .ok compiled ∧
      postfixOf "(a)·(b*)" = postfixOf "ab*" := by
  have a (i : Nat) : Parses .atom i ['a'] (.literal 'a' i) := .literal rfl
  have b (i : Nat) : Parses .factor i (['b'] ++ ['*']) (.star (i + 1) (.literal 'b' i)) :=
    .star (.ofAtom (.literal rfl))
  have parses : Parses .expression 0 "ab*".toList (.concat 1 (.literal 'a' 0) (.star 2 (.literal 'b' 1))) :=
    .ofTerm (.juxtaposition (.ofFactor (.ofAtom (a 0))) (b 1))
  have first : Parses .term 0 ['(', 'a', ')'] (.literal 'a' 1) :=
    .ofFactor (.ofAtom (.group (.ofTerm (.ofFactor (.ofAtom (a 1))))))
  have parses' : Parses .expression 0 "(a)·(b*)".toList (.concat 3 (.literal 'a' 1) (.star 6 (.literal 'b' 5))) :=
    .ofTerm (.concat first (.ofAtom (.group (.ofTerm (.ofFactor (b 5))))))
  have compiles := compile_of_parses parses
  have compiles' := compile_of_parses parses'
  obtain ⟨t, parsesT, unique, _, _, _, others⟩ := compile_postfix compiles
  obtain rfl := unique _ parses
  obtain ⟨texts, same⟩ := others _ _ _ compiles' parses'
  have equal := same rfl
  rw [equal] at compiles'
  exact ⟨_, compiles, compiles', texts.mpr rfl⟩

end RegexCompiler
