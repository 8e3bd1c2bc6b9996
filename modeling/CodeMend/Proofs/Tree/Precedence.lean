import CodeMend.Proofs.Tree.Standing

/-!
# CodeMend — operators bind as tight as they are meant to

The productions grade the operands of an operation.  Read off a parsed tree, an operation groups to
the left: what stands to the left of an operator binds as tight as the operator at least, and what
stands to its right binds tighter.

* **`level?`**, **`Loose`** — the level of an operation, and what binds looser than every level.
* **`grade`** — how tight the expression at a node binds, as the productions count it.
* **`Graded`** — what is said of the operands in a tree.
* **`graded_of_parse`** — the tree of a source that parses.
-/

namespace CodeMend.Tree

open Production

variable {t : Tree} {n : NodeId}

/-! ## Levels of operations

What is said of a tree is in terms of its nodes and their tokens, without productions and shapes. -/

/-- The texts of the tokens that a node lists. -/
def words (t : Tree) (n : NodeId) : List String :=
  (t.childTokens n).map fun i => (t.token i).text

/-- The level of a binary operation or of a type test.  The operator that replaces null has none. -/
def level? (t : Tree) (n : NodeId) : Option Nat :=
  match t.kind n with
  | .binaryExpression => operatorLevel? (t.words n)
  | .isPatternExpression | .asExpression => some testLevel
  | _ => none

/-- The operator at the node replaces null. -/
def Coalesces (t : Tree) (n : NodeId) : Prop :=
  t.kind n = .binaryExpression ∧ t.words n = ["??"]

/-- The kinds of expressions that bind loosest. -/
def looseKinds : List NodeKind :=
  [.conditionalExpression, .assignmentExpression, .simpleLambdaExpression,
    .parenthesizedLambdaExpression]

/-- The expression at the node binds looser than every level. -/
def Loose (t : Tree) (n : NodeId) : Prop := t.kind n ∈ looseKinds ∨ t.Coalesces n

/-- What a tree says of the operands in it. -/
structure Graded (t : Tree) : Prop where
  /-- The operator of a binary expression has a level or replaces null. -/
  binary : ∀ n, t.kind n = .binaryExpression →
    (∃ l < Grammar.binaryLevels.length, t.level? n = some l) ∨ t.Coalesces n
  /-- Operands bind no looser than the operation, and to the right of a binary operator tighter. -/
  operands : ∀ n l, t.level? n = some l → ∃ left right, t.childNodes n = [left, right] ∧
    ¬t.Loose left ∧ ¬t.Loose right ∧ (∀ l', t.level? left = some l' → l ≤ l') ∧
      (t.kind n = .binaryExpression → ∀ l', t.level? right = some l' → l < l')
  /-- The operator that replaces null groups to the right. -/
  coalescing : ∀ n, t.Coalesces n → ∃ left right, t.childNodes n = [left, right] ∧ ¬t.Loose left
  /-- A condition is no expression of the loosest kinds. -/
  conditional : ∀ n, t.kind n = .conditionalExpression →
    ∃ test x y, t.childNodes n = [test, x, y] ∧ t.kind test ∉ looseKinds

/-! ## Grades

Looseness and levels are put on one scale. -/

theorem operatorLevel?_of_coalescing : operatorLevel? ["??"] = none := by decide

/-- How tight the expression at a node binds. -/
def grade (t : Tree) (n : NodeId) : Nat := gradeOf (t.kind n) (t.words n)

theorem grade_le_of_loose (h : t.Loose n) : t.grade n ≤ 1 := by
  have hzero : ∀ k ∈ looseKinds, ∀ words, gradeOf k words = 0 := by
    intro k hk words
    simp only [looseKinds, List.mem_cons, List.not_mem_nil, or_false] at hk
    rcases hk with rfl | rfl | rfl | rfl <;> rfl
  rcases h with h | ⟨hk, hwords⟩
  · rw [grade, hzero _ h]
    exact Nat.zero_le 1
  · rw [grade, hk, hwords]
    exact Nat.le_refl 1

theorem grade_of_level? {l : Nat} (h : t.level? n = some l) : t.grade n = l + 2 := by
  unfold level? at h
  unfold grade
  split at h
  next hk =>
    have hne : t.words n ≠ ["??"] := by
      intro hwords
      rw [hwords, operatorLevel?_of_coalescing] at h
      cases h
    rw [hk, gradeOf, if_neg hne, h]
    rfl
  next hk =>
    rw [hk, ← Option.some.inj h]
    rfl
  next hk =>
    rw [hk, ← Option.some.inj h]
    rfl
  next => cases h

/-! ## The productions, read off the tree

What the productions say of shapes is read off the nodes where the shapes stand. -/

section Parsed

variable (hp : Parsed t)

include hp

/-- The tokens among the children of a shape that stands in the tree. -/
theorem Parsed.words_eq {k : NodeKind} {cs : List Shape} (h : Stands t (.node n k cs)) :
    wordsOf t.tokens cs = t.words n := by
  cases h with
  | node hlt _ hchildren _ _ =>
    have hall : ∀ s ∈ cs, ∀ i, s = .token i → tokenAt t.tokens i = t.token i := by
      rintro s hs i rfl
      have hi := hp.wellFormed.token_lt n hlt i
        (hchildren ▸ List.mem_map.mpr ⟨_, hs, rfl⟩)
      rw [tokenAt, token, Nat.min_eq_left (by omega)]
    rw [Tree.words, childTokens, hchildren, wordsOf, List.filterMap_map, List.map_filterMap]
    refine List.filterMap_congr fun s hs => ?_
    cases s with
    | token i =>
      show some (tokenAt t.tokens i).text = some (t.token i).text
      rw [hall _ hs i rfl]
    | node id k' ds => rfl

theorem Parsed.grade_eq {k : NodeKind} {cs : List Shape} (h : Stands t (.node n k cs)) :
    Production.grade t.tokens (.node n k cs) = t.grade n := by
  rw [Production.grade, hp.words_eq h, grade, h.kind_eq]

/-- An operand in front of other parts. -/
theorem Parsed.operand {g : Nat} {ls : List (Language Shape)} {ns : List NodeId}
    (h : Words t (operand t.tokens g :: ls).prod ns) :
    ∃ e rest, ns = e :: rest ∧ g ≤ t.grade e ∧ Words t ls.prod rest := by
  obtain ⟨xs, ys, rfl, ⟨_, ⟨_, ⟨⟨⟨id, k, cs, rfl, -⟩, -⟩, hgrade⟩, rfl⟩, hall, rfl⟩, hy⟩ :=
    h.append
  refine ⟨id, ys, rfl, ?_, hy⟩
  rwa [hp.grade_eq (hall _ List.mem_cons_self)] at hgrade

/-- The operator that replaces null, with its operands. -/
theorem Parsed.coalescing
    (h : Words t [Production.operand t.tokens 2, mark t.tokens "??", expr t.tokens].prod
      (t.childNodes n)) :
    ∃ left right, t.childNodes n = [left, right] ∧ 2 ≤ t.grade left := by
  obtain ⟨left, rest, hn, hleft, h⟩ := hp.operand h
  obtain ⟨right, rest, rfl, -, h⟩ := h.skip.expression
  obtain rfl := h.nil
  exact ⟨left, right, hn, hleft⟩

/-- A binary operation of a level, with its operands. -/
theorem Parsed.leveled {l : Nat} {level : Grammar.BinaryLevel}
    (h : Words t [Production.operand t.tokens (l + 2), operatorOf t.tokens level,
      Production.operand t.tokens (l + 3)].prod (t.childNodes n)) :
    ∃ left right, t.childNodes n = [left, right] ∧ l + 2 ≤ t.grade left ∧
      l + 3 ≤ t.grade right := by
  obtain ⟨left, rest, hn, hleft, h⟩ := hp.operand h
  have h := h.mono (prod_cons_mono operatorOf_le)
  rw [List.prod_cons, mul_assoc, ← List.prod_cons, ← List.prod_cons] at h
  obtain ⟨right, rest, rfl, hright, h⟩ := hp.operand h.skip.skipOption
  obtain rfl := h.nil
  exact ⟨left, right, hn, hleft, hright⟩

/-- **A binary expression is an operation of its level, or replaces null.** -/
theorem Parsed.binary_cases (hk : t.kind n = .binaryExpression) :
    (t.words n = ["??"] ∧ ∃ left right, t.childNodes n = [left, right] ∧ 2 ≤ t.grade left) ∨
      ∃ l < Grammar.binaryLevels.length, t.level? n = some l ∧
        ∃ left right, t.childNodes n = [left, right] ∧ l + 2 ≤ t.grade left ∧
          l + 3 ≤ t.grade right := by
  obtain ⟨cs, hword, hstands⟩ := hp.exists_children hk (by decide)
  rcases hword with hword | ⟨l, level, hl, hword⟩
  · refine .inl ⟨?_, hp.coalescing (hstands.words hword)⟩
    obtain ⟨y, hy, hwords⟩ : ∃ y ∈ mark t.tokens "??", wordsOf t.tokens cs = wordsOf t.tokens y :=
      wordsOf_between le_rfl hword
    rw [← hp.words_eq hstands, hwords, wordsOf_mark hy]
  · refine .inr ⟨l, (List.getElem?_eq_some_iff.mp hl).1, ?_, hp.leveled (hstands.words hword)⟩
    obtain ⟨y, hy, hwords⟩ : ∃ y ∈ operatorOf t.tokens level,
        wordsOf t.tokens cs = wordsOf t.tokens y :=
      wordsOf_between operand_le_expr hword
    simp only [level?, hk]
    rw [← hp.words_eq hstands, hwords]
    exact (operatorLevel?_of_operatorOf hl hy).2

/-- A type test has an operand of its level at least, and a pattern or a type behind it. -/
theorem Parsed.childNodes_test
    (hk : t.kind n = .isPatternExpression ∨ t.kind n = .asExpression) :
    ∃ left right, t.childNodes n = [left, right] ∧ testLevel + 2 ≤ t.grade left ∧
      ((t.kind right).isPattern = true ∨ (t.kind right).isType = true) := by
  rcases hk with hk | hk
  · have h : Words t [Production.operand t.tokens (testLevel + 2), anyWord t.tokens,
        part IsPattern].prod (t.childNodes n) := hp.words hk (by decide)
    obtain ⟨left, rest, hn, hleft, h⟩ := hp.operand h
    obtain ⟨right, rest, rfl, hright, h⟩ := h.skip.kind
    obtain rfl := h.nil
    exact ⟨left, right, hn, hleft, .inl hright⟩
  · have h : Words t [Production.operand t.tokens (testLevel + 2), anyWord t.tokens,
        plainType].prod (t.childNodes n) := hp.words hk (by decide)
    obtain ⟨left, rest, hn, hleft, h⟩ := hp.operand h
    obtain ⟨right, rest, rfl, hright, -, h⟩ := h.skip.plain
    obtain rfl := h.nil
    exact ⟨left, right, hn, hleft, .inr hright⟩

omit hp in
/-- Patterns and types are no expressions that bind loose. -/
theorem not_loose_of_kind (h : (t.kind n).isPattern = true ∨ (t.kind n).isType = true) :
    ¬t.Loose n := by
  have hkinds : ∀ k : NodeKind, k.isPattern = true ∨ k.isType = true →
      k ∉ looseKinds ∧ k ≠ .binaryExpression := by
    intro k hk
    cases k <;> first | decide | exact absurd hk (by decide)
  obtain ⟨hloose, hbinary⟩ := hkinds _ h
  exact fun hl => hl.elim hloose fun hc => hbinary hc.1

omit hp in
theorem not_loose_of_grade (h : 2 ≤ t.grade n) : ¬t.Loose n :=
  fun hl => absurd (grade_le_of_loose hl) (by omega)

/-- **Operands bind no looser than their operation.** -/
theorem Parsed.graded : Graded t where
  binary n hk := by
    rcases hp.binary_cases hk with ⟨hwords, -⟩ | ⟨l, hlt, hlevel, -⟩
    · exact .inr ⟨hk, hwords⟩
    · exact .inl ⟨l, hlt, hlevel⟩
  operands n l hlevel := by
    have htest : t.kind n ≠ .binaryExpression →
        (t.kind n = .isPatternExpression ∨ t.kind n = .asExpression) ∧ l = testLevel := by
      intro hne
      unfold level? at hlevel
      split at hlevel
      next hk => exact absurd hk hne
      next hk => exact ⟨.inl hk, (Option.some.inj hlevel).symm⟩
      next hk => exact ⟨.inr hk, (Option.some.inj hlevel).symm⟩
      next => cases hlevel
    -- An operation with a level is a binary expression or a test of a type.
    by_cases hk : t.kind n = .binaryExpression
    · rcases hp.binary_cases hk with ⟨hwords, -⟩ | ⟨l', -, hlevel', left, right, hn, hleft, hright⟩
      · simp [level?, hk, hwords, operatorLevel?_of_coalescing] at hlevel
      · obtain rfl : l' = l := Option.some.inj (hlevel'.symm.trans hlevel)
        refine ⟨left, right, hn, not_loose_of_grade (by omega), not_loose_of_grade (by omega),
          ?_, ?_⟩
        · intro m hm
          have hgrade := grade_of_level? hm
          omega
        · intro _ m hm
          have hgrade := grade_of_level? hm
          omega
    · obtain ⟨hkind, rfl⟩ := htest hk
      obtain ⟨left, right, hn, hleft, hright⟩ := hp.childNodes_test hkind
      refine ⟨left, right, hn, not_loose_of_grade (by omega), not_loose_of_kind hright, ?_,
        fun h => absurd h hk⟩
      intro m hm
      have hgrade := grade_of_level? hm
      omega
  coalescing n h := by
    rcases hp.binary_cases h.1 with ⟨-, left, right, hn, hleft⟩ | ⟨l, -, hlevel, -⟩
    · exact ⟨left, right, hn, not_loose_of_grade hleft⟩
    · simp [level?, h.1, h.2, operatorLevel?_of_coalescing] at hlevel
  conditional n hk := by
    have h : Words t [Production.operand t.tokens 1, anyWord t.tokens, expr t.tokens,
        mark t.tokens ":", expr t.tokens].prod (t.childNodes n) := hp.words hk (by decide)
    obtain ⟨test, rest, hn, htest, h⟩ := hp.operand h
    obtain ⟨x, rest, rfl, -, h⟩ := h.skip.expression
    obtain ⟨y, rest, rfl, -, h⟩ := h.skip.expression
    obtain rfl := h.nil
    refine ⟨test, x, y, hn, fun hloose => ?_⟩
    -- A test that binds loosest has the grade of nothing, but the production asks for more.
    have hzero : t.grade test = 0 := by
      simp only [looseKinds, List.mem_cons, List.not_mem_nil, or_false] at hloose
      rcases hloose with hk | hk | hk | hk <;> rw [grade, hk] <;> rfl
    omega

end Parsed

/-- **A parsed tree respects precedence and grouping.** -/
theorem graded_of_parse {source : String} (h : parse source = .ok t) : t.Graded :=
  (parsed_of_parse h).graded

/-- Two subtractions group to the left, and a product binds tighter than they do. -/
theorem graded_of_parse_differences :
    ∃ t, parse "class C { int M(int a) { return a - 1 - 2 * a; } }" = .ok t ∧ t.Graded ∧
      t.childNodes 12 = [10, 14] ∧ t.level? 12 = some 8 ∧ t.level? 10 = some 8 ∧
        t.level? 14 = some 9 := by
  have hlevels : (parse "class C { int M(int a) { return a - 1 - 2 * a; } }").toOption.map (fun t =>
      (t.childNodes 12, t.level? 12, t.level? 10, t.level? 14)) =
        some ([10, 14], some 8, some 8, some 9) := by
    decide +kernel
  cases h : parse "class C { int M(int a) { return a - 1 - 2 * a; } }" with
  | error e =>
    rw [h] at hlevels
    cases hlevels
  | ok t =>
    rw [h] at hlevels
    simp only [Except.toOption, Option.map_some, Option.some.injEq, Prod.mk.injEq] at hlevels
    obtain ⟨hnodes, houter, hinner, hproduct⟩ := hlevels
    exact ⟨t, rfl, graded_of_parse h, hnodes, houter, hinner, hproduct⟩

end CodeMend.Tree
