import RegexCompiler.Proofs.Determinization
import RegexCompiler.Proofs.Recognition
import RegexCompiler.Proofs.Simulation
import RegexCompiler.Proofs.Thompson

/-!
A printed tree may leave out parentheses while the grammar groups to the left, so what is read is the
printed tree up to the grouping of equal operators.
-/

namespace RegexCompiler

/-! ## Grouping equal operators -/

/-- The second tree is the first one with equal binary operators grouped more to
    the left. -/
inductive Regroups : Tree → Tree → Prop where
  | refl (t : Tree) : Regroups t t
  | trans {t t' t'' : Tree} : Regroups t t' → Regroups t' t'' → Regroups t t''
  | rotateConcat (first second third : Tree) :
    Regroups (.concat first (.concat second third)) (.concat (.concat first second) third)
  | rotateAlternation (first second third : Tree) :
    Regroups (.alternation first (.alternation second third)) (.alternation (.alternation first second) third)
  | concat {first first' second second' : Tree} : Regroups first first' → Regroups second second' →
    Regroups (.concat first second) (.concat first' second')
  | alternation {left left' right right' : Tree} : Regroups left left' → Regroups right right' →
    Regroups (.alternation left right) (.alternation left' right')
  | star {inner inner' : Tree} : Regroups inner inner' → Regroups (.star inner) (.star inner')

namespace Tree

theorem matches_concat_assoc {first second third : Tree} {w : List Char} :
    Matches (.concat (.concat first second) third) w ↔ Matches (.concat first (.concat second third)) w := by
  constructor
  · intro whole
    obtain ⟨uv, z, inner, last, rfl⟩ := matches_concat_iff.mp whole
    obtain ⟨u, v, before, after, rfl⟩ := matches_concat_iff.mp inner
    rw [List.append_assoc]
    exact .concat before (.concat after last)
  · intro whole
    obtain ⟨u, vz, before, inner, rfl⟩ := matches_concat_iff.mp whole
    obtain ⟨v, z, after, last, rfl⟩ := matches_concat_iff.mp inner
    rw [← List.append_assoc]
    exact .concat (.concat before after) last

theorem Matches.star_mono {inner inner' : Tree} (included : ∀ v, Matches inner v → Matches inner' v) {w : List Char}
    (repeated : Matches (.star inner) w) : Matches (.star inner') w := by
  generalize same : Tree.star inner = t at repeated
  induction repeated with
  | literal | concat | left | right => cases same
  | stop =>
    cases same
    exact .stop _
  | again once _ _ ih =>
    cases same
    exact .again (included _ once) (ih rfl)

end Tree

namespace Regroups

theorem matches_iff {t t' : Tree} (regroups : Regroups t t') (w : List Char) : t'.Matches w ↔ t.Matches w := by
  induction regroups generalizing w with
  | refl => exact Iff.rfl
  | trans _ _ ih ih' => exact (ih' w).trans (ih w)
  | rotateConcat => exact Tree.matches_concat_assoc
  | rotateAlternation => simp only [Tree.matches_alternation_iff, or_assoc]
  | concat _ _ ih ih' => simp only [Tree.matches_concat_iff, ih, ih']
  | alternation _ _ ih ih' => simp only [Tree.matches_alternation_iff, ih, ih']
  | star _ ih =>
    constructor
    · exact Tree.Matches.star_mono fun v => (ih v).mp
    · exact Tree.Matches.star_mono fun v => (ih v).mpr

theorem stateCount_eq {t t' : Tree} (regroups : Regroups t t') : t'.stateCount = t.stateCount := by
  induction regroups with
  | refl => rfl
  | trans _ _ ih ih' => exact ih'.trans ih
  | rotateConcat | rotateAlternation =>
    simp only [Tree.stateCount]
    omega
  | concat _ _ ih ih' | alternation _ _ ih ih' => rw [Tree.stateCount, Tree.stateCount, ih, ih']
  | star _ ih => rw [Tree.stateCount, Tree.stateCount, ih]

end Regroups

/-! ## Reading what was printed -/

/-- What a text is that prints a tree for operators of a level. -/
def Category.ofLevel : Nat → Category
  | 0 | 1 => .expression
  | 2 => .term
  | 3 => .factor
  | _ => .atom

theorem Category.one_le_level (category : Category) : 1 ≤ category.level := by
  cases category <;> decide

theorem Category.level_le_atom (category : Category) : category.level ≤ atom.level := by
  cases category <;> decide

theorem Category.level_ofLevel_le {bound : Nat} {category : Category} (le : bound ≤ category.level) :
    (ofLevel bound).level ≤ category.level := by
  rcases bound with _ | _ | _ | _ | bound
  · exact Nat.le_trans (by decide) category.one_le_level
  · exact le
  · exact le
  · exact le
  · exact Nat.le_trans (Nat.le_add_left 4 bound) le

namespace Parses

theorem weaken {category category' : Category} {i : Nat} {w : List Char} {t : PlacedTree}
    (parses : Parses category i w t) (le : category'.level ≤ category.level) : Parses category' i w t := by
  cases category' with
  | expression =>
    cases category with
    | expression => exact parses
    | term => exact .ofTerm parses
    | factor => exact .ofTerm (.ofFactor parses)
    | atom => exact .ofTerm (.ofFactor (.ofAtom parses))
  | term =>
    cases category with
    | expression => exact absurd le (by decide)
    | term => exact parses
    | factor => exact .ofFactor parses
    | atom => exact .ofFactor (.ofAtom parses)
  | factor =>
    cases category with
    | expression | term => exact absurd le (by decide)
    | factor => exact parses
    | atom => exact .ofAtom parses
  | atom =>
    cases category with
    | expression | term | factor => exact absurd le (by decide)
    | atom => exact parses

/-- A factor behind two joined terms is joined to both of them. -/
theorem regroup_factor {i j : Nat} {w v sign : List Char} {t t' : Tree} {last : PlacedTree}
    (joined : ∃ whole, Parses .term i w whole ∧ Regroups (.concat t t') whole.tree)
    (isSign : sign = [] ∨ sign = [Token.concatSign]) (place : j = i + w.length)
    (factor : Parses .factor (j + sign.length) v last) :
    ∃ whole, Parses .term i (w ++ sign ++ v) whole ∧ Regroups (.concat t (.concat t' last.tree)) whole.tree := by
  obtain ⟨whole, parses, regroups⟩ := joined
  rw [place] at factor
  exact ⟨_, parses.join isSign factor, (Regroups.rotateConcat _ _ _).trans (.concat regroups (.refl _))⟩

theorem append_term {i : Nat} {u v sign : List Char} {first second : PlacedTree} (left : Parses .term i u first)
    (isSign : sign = [] ∨ sign = [Token.concatSign]) (right : Parses .term (i + u.length + sign.length) v second) :
    ∃ whole, Parses .term i (u ++ sign ++ v) whole ∧ Regroups (.concat first.tree second.tree) whole.tree := by
  -- The second term is taken apart from its last factor on; the first one only stands before it.
  generalize isTerm : Category.term = category, starts : i + u.length + sign.length = j at right
  induction right with
  | ofTerm | alternation | ofAtom | star | literal | group => cases isTerm
  | ofFactor factor =>
    subst starts
    exact ⟨_, left.join isSign factor, .refl _⟩
  | @juxtaposition j v _ _ _ _ factor ih _ =>
    have place : j + v.length = i + (u ++ sign ++ v).length := by
      simp only [List.length_append]
      omega
    have whole := regroup_factor (ih isTerm starts) (.inl rfl) place factor
    rwa [List.append_nil, List.append_assoc _ v] at whole
  | @concat j v _ _ _ _ factor ih _ =>
    have place : j + v.length = i + (u ++ sign ++ v).length := by
      simp only [List.length_append]
      omega
    have whole := regroup_factor (ih isTerm starts) (.inr rfl) place factor
    rwa [List.append_assoc, List.append_assoc _ v] at whole

/-- An alternative that is an expression belongs to the one before it term by
    term. -/
theorem append_expression {i : Nat} {u v : List Char} {left right : PlacedTree} (before : Parses .expression i u left)
    (after : Parses .expression (i + u.length + 1) v right) :
    ∃ whole, Parses .expression i (u ++ '|' :: v) whole ∧ Regroups (.alternation left.tree right.tree) whole.tree := by
  generalize isExpression : Category.expression = category, starts : i + u.length + 1 = j at after
  induction after with
  | ofFactor | juxtaposition | concat | ofAtom | star | literal | group => cases isExpression
  | ofTerm term =>
    subst starts
    exact ⟨_, .alternation before term, .refl _⟩
  | @alternation j v v' middle right _ term ih _ =>
    subst starts
    obtain ⟨whole, parses, regroups⟩ := ih isExpression rfl
    have place : i + u.length + 1 + v.length = i + (u ++ '|' :: v).length := by
      simp only [List.length_append, List.length_cons]
      omega
    rw [place] at term
    rw [← List.cons_append, ← List.append_assoc]
    exact ⟨_, .alternation parses term, (Regroups.rotateAlternation _ _ _).trans (.alternation regroups (.refl _))⟩

end Parses

/-- A printed tree is read up to grouping, at any place. -/
theorem Renders.parses {level : Nat} {t : Tree} {w : List Char} (renders : Renders level t w) (i : Nat) :
    ∃ placed, Parses (.ofLevel level) i w placed ∧ Regroups t placed.tree := by
  induction renders generalizing i with
  | literal isLiteral =>
    exact ⟨_, (Parses.literal isLiteral).weaken (Category.level_le_atom _), .refl _⟩
  | star le _ ih =>
    obtain ⟨placed, parses, regroups⟩ := ih i
    exact ⟨_, (Parses.star parses).weaken (Category.level_ofLevel_le le), .star regroups⟩
  | @juxtaposition _ _ _ u v le _ _ ihFirst ihSecond =>
    obtain ⟨first, parsesFirst, regroupsFirst⟩ := ihFirst i
    obtain ⟨second, parsesSecond, regroupsSecond⟩ := ihSecond (i + u.length)
    obtain ⟨whole, parses, regroups⟩ := parsesFirst.append_term (.inl rfl) parsesSecond
    rw [List.append_nil] at parses
    exact ⟨whole, parses.weaken (Category.level_ofLevel_le le),
      (Regroups.concat regroupsFirst regroupsSecond).trans regroups⟩
  | @concat _ _ _ u v le _ _ ihFirst ihSecond =>
    obtain ⟨first, parsesFirst, regroupsFirst⟩ := ihFirst i
    obtain ⟨second, parsesSecond, regroupsSecond⟩ := ihSecond (i + u.length + 1)
    obtain ⟨whole, parses, regroups⟩ := parsesFirst.append_term (.inr rfl) parsesSecond
    rw [List.append_assoc] at parses
    exact ⟨whole, parses.weaken (Category.level_ofLevel_le le),
      (Regroups.concat regroupsFirst regroupsSecond).trans regroups⟩
  | @alternation _ _ _ u v le _ _ ihLeft ihRight =>
    obtain ⟨left, parsesLeft, regroupsLeft⟩ := ihLeft i
    obtain ⟨right, parsesRight, regroupsRight⟩ := ihRight (i + u.length + 1)
    obtain ⟨whole, parses, regroups⟩ := parsesLeft.append_expression parsesRight
    exact ⟨whole, parses.weaken (Category.level_ofLevel_le le),
      (Regroups.alternation regroupsLeft regroupsRight).trans regroups⟩
  | group _ ih =>
    obtain ⟨placed, parses, regroups⟩ := ih (i + 1)
    exact ⟨_, (Parses.group parses).weaken (Category.level_le_atom _), regroups⟩

/-! ## The characters of words -/

/-- The characters of the literals of an expression. -/
def Tree.literals : Tree → List Char
  | .literal char => [char]
  | .concat first second => first.literals ++ second.literals
  | .alternation left right => left.literals ++ right.literals
  | .star inner => inner.literals

theorem Regroups.literals_eq {t t' : Tree} (regroups : Regroups t t') : t'.literals = t.literals := by
  induction regroups with
  | refl => rfl
  | trans _ _ ih ih' => exact ih'.trans ih
  | rotateConcat | rotateAlternation => simp only [Tree.literals, List.append_assoc]
  | concat _ _ ih ih' | alternation _ _ ih ih' => rw [Tree.literals, Tree.literals, ih, ih']
  | star _ ih => rw [Tree.literals, Tree.literals, ih]

theorem Tree.Matches.mem_literals {t : Tree} {w : List Char} (inLanguage : t.Matches w) :
    ∀ char ∈ w, char ∈ t.literals := by
  intro char member
  induction inLanguage with
  | literal => exact member
  | concat _ _ ih ih' =>
    rw [literals, List.mem_append]
    rcases List.mem_append.mp member with inFirst | inSecond
    · exact .inl (ih inFirst)
    · exact .inr (ih' inSecond)
  | left _ ih => exact List.mem_append_left _ (ih member)
  | right _ ih => exact List.mem_append_right _ (ih member)
  | stop => cases member
  | again _ _ ih ih' =>
    rcases List.mem_append.mp member with inFirst | inRest
    · exact ih inFirst
    · exact ih' inRest

/-- The literals of a text, each as often as it occurs. -/
def literalsOf (text : List Char) : List Char :=
  text.filterMap fun c => (Token.ofChar c).literal?

/-- An expression has the literals of its text, in the same order. -/
theorem Parses.literals_eq {category : Category} {i : Nat} {w : List Char} {t : PlacedTree}
    (parses : Parses category i w t) : t.tree.literals = literalsOf w := by
  have bar : (Token.ofChar '|').literal? = none := rfl
  have star : (Token.ofChar '*').literal? = none := rfl
  have opening : (Token.ofChar '(').literal? = none := rfl
  have closing : (Token.ofChar ')').literal? = none := rfl
  have sign : (Token.ofChar Token.concatSign).literal? = none := rfl
  unfold literalsOf
  induction parses with
  | ofTerm _ ih | ofFactor _ ih | ofAtom _ ih => exact ih
  | alternation _ _ ih ih' | juxtaposition _ _ ih ih' | concat _ _ ih ih' =>
    simp [PlacedTree.tree, Tree.literals, ih, ih', bar, sign]
  | star _ ih => simp [PlacedTree.tree, Tree.literals, ih, star]
  | literal isLiteral => simp [PlacedTree.tree, Tree.literals, isLiteral, Token.literal?]
  | group _ ih => simp [ih, opening, closing]

theorem Parses.mem_of_literal {category : Category} {i : Nat} {w : List Char} {t : PlacedTree}
    (parses : Parses category i w t) {char : Char} (member : char ∈ t.tree.literals) :
    char ∈ w ∧ Token.ofChar char = .literal char := by
  rw [parses.literals_eq, literalsOf, List.mem_filterMap] at member
  obtain ⟨c, inside, found⟩ := member
  have role := Token.literal?_eq_some_iff.mp found
  obtain rfl : c = char := (Token.ofChar_eq_literal_iff.mp role).1
  exact ⟨inside, role⟩

theorem accepts_of_parses {expression : String} {t : PlacedTree} (parses : Parses .expression 0 expression.toList t)
    (few : t.tree.stateCount < UInt32.size) (word : List Char) :
    (t.tree.nfa.accepts word = true ↔ t.tree.Matches word) ∧
      ((t.tree.nfa.toDfa (Alphabet.ofExpression expression)).sets.size < UInt32.size →
        ((t.tree.nfa.toDfa (Alphabet.ofExpression expression)).accepts word = true ↔ t.tree.Matches word)) := by
  have simulated : t.tree.nfa.accepts word = true ↔ t.tree.Matches word := by
    rw [Nfa.accepts_iff, Nfa.mem_simulate]
    exact t.tree.path_nfa_iff (Nat.le_of_lt few) word
  refine ⟨simulated, fun fewSets => ?_⟩
  rw [Nfa.accepts_toDfa_iff (Nat.le_of_lt fewSets), simulated]
  constructor
  · exact fun ⟨_, inLanguage⟩ => inLanguage
  · intro inLanguage
    refine ⟨fun char member => ?_, inLanguage⟩
    exact Alphabet.mem_ofExpression.mpr (parses.mem_of_literal (inLanguage.mem_literals char member))

/-- A printed tree compiles, and both automata accept the words of the tree. -/
theorem compile_renders {expression : String} {t : Tree} (renders : Renders 0 t expression.toList) :
    ∃ compiled, compile expression = .ok compiled ∧
      (t.stateCount < UInt32.size → compiled.nfa.numStates.toNat = t.stateCount ∧
        ∀ word, (compiled.nfa.accepts word = true ↔ t.Matches word) ∧
          (compiled.dfa.sets.size < UInt32.size → (compiled.dfa.accepts word = true ↔ t.Matches word))) := by
  obtain ⟨placed, parses, regroups⟩ := renders.parses 0
  refine ⟨_, compile_of_parses parses, fun few => ⟨?_, fun word => ?_⟩⟩
  · rw [← regroups.stateCount_eq] at few ⊢
    exact UInt32.toNat_ofNat_of_lt' few
  · rw [← regroups.stateCount_eq] at few
    rw [← regroups.matches_iff]
    exact accepts_of_parses parses few word

/-- An expression whose binary operators group to the right, which no parentheses
    need to say. -/
def Tree.nested : Tree :=
  .alternation (.concat (.literal 'a') (.concat (.star (.literal 'b')) (.literal 'a')))
    (.alternation (.literal 'b') (.literal 'b'))

theorem compile_renders_nested :
    ∃ compiled, compile "a(b*)a|b|b" = .ok compiled ∧ compiled.nfa.accepts ['a', 'b', 'b', 'a'] = true ∧
      compiled.dfa.accepts ['a', 'b', 'b', 'a'] = true := by
  have a (level : Nat) : Renders level (.literal 'a') ['a'] := .literal (by decide)
  have b (level : Nat) : Renders level (.literal 'b') ['b'] := .literal (by decide)
  have starred : Renders 2 (.star (.literal 'b')) ['(', 'b', '*', ')'] := .group (.star (by decide) (b 3))
  have joined : Renders 1 (.concat (.literal 'a') (.concat (.star (.literal 'b')) (.literal 'a')))
      ['a', '(', 'b', '*', ')', 'a'] :=
    .juxtaposition (by decide) (a 2) (.juxtaposition (by decide) starred (a 2))
  have renders : Renders 0 .nested "a(b*)a|b|b".toList :=
    .alternation (by decide) joined (.alternation (by decide) (b 1) (b 1))
  have inLanguage : Tree.nested.Matches ['a', 'b', 'b', 'a'] :=
    .left (.concat (.literal 'a') (.concat (.again (.literal 'b') (.again (.literal 'b') (.stop _))) (.literal 'a')))
  obtain ⟨compiled, compiles, correct⟩ := compile_renders renders
  obtain ⟨_, accepts⟩ := correct (by decide)
  have few : compiled.dfa.sets.size < UInt32.size := by
    obtain ⟨postfixed, reordered, assembled, same⟩ := compile_eq_ok_iff.mp compiles
    have spelled : toPostfix (expand "a(b*)a|b|b") = .ok [⟨.literal 'a', 0⟩, ⟨.literal 'b', 2⟩, ⟨.star, 3⟩,
        ⟨.concat, 1⟩, ⟨.literal 'a', 5⟩, ⟨.concat, 5⟩, ⟨.literal 'b', 7⟩, ⟨.alternation, 6⟩, ⟨.literal 'b', 9⟩,
        ⟨.alternation, 8⟩] := rfl
    rw [spelled] at reordered
    cases reordered
    rw [Nfa.ofPostfix_postorder (.alternation (.alternation (.concat (.concat (.literal 'a') (.star (.literal 'b')))
      (.literal 'a')) (.literal 'b')) (.literal 'b')) rfl] at assembled
    rw [Compiled.dfa, ← Except.ok.inj assembled, ← same]
    cbv
  exact ⟨compiled, compiles, (accepts _).1.mpr inLanguage, ((accepts _).2 few).mpr inLanguage⟩

end RegexCompiler
