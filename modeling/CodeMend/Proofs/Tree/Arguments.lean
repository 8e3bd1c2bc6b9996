import CodeMend.Proofs.Tree.Views

/-!
# CodeMend — names and declarations among arguments

A name with type arguments and two comparisons are written alike, and so are a declaration and a
comparison in front of another argument.  What the parser makes of them is decided by the tokens
behind: a name has type arguments where a token follows them that cannot begin an operand, and an
argument declares a variable where a type and a name stand in front of a comma or of the mark that
closes the list.  The latter is decided without a look at the word that says how the argument is
passed.

* **`operands`** — the nodes listed under an expression or an argument that are no types.
* **`generic_iff_of_operand`** — a name among them has type arguments by what follows them.
* **`declaration_iff`** — an argument declares a variable by what follows it.
* **`only_out_arguments_declare`** — where such tokens stand in arguments for results only, no other
  argument declares anything, and the commas of a list separate as many arguments.
* **`comparisons_read_as_declaration`** — two comparisons that are taken for one declaration.
-/

namespace CodeMend

open Shape Production

/-- How an argument that hands a result back is marked. -/
def ArgumentView.PassesOut (v : ArgumentView) (t : Tree) : Prop := v.refKindText? t = some "out"

/-- The tokens of the argument's value are those of a type and a name in front of a comma or of the
mark that closes the list. -/
def ArgumentView.SpellsDeclaration (v : ArgumentView) (t : Tree) (close : String) : Prop :=
  (Scan.typedName? t.tokens (t.firstToken v.expression) { marks := [",", close] }).isSome = true

instance (v : ArgumentView) (t : Tree) : Decidable (v.PassesOut t) :=
  inferInstanceAs (Decidable (_ = _))

instance (v : ArgumentView) (t : Tree) (close : String) :
    Decidable (v.SpellsDeclaration t close) :=
  inferInstanceAs (Decidable (_ = true))

namespace Tree

variable {t : Tree} {a m n p : NodeId} {k : NodeKind}

/-- The node is a list of arguments that ends with the mark. -/
def ListsArguments (t : Tree) (n : NodeId) (close : String) : Prop :=
  t.kind n = .argumentList ∧ close = ")" ∨ t.kind n = .bracketedArgumentList ∧ close = "]"

/-! ## Names

What the parser decided about type arguments can be read off a tree again, at each name of an
expression and from the token behind it. -/

/-- The kinds of nodes whose parts are all operands, apart from lists and what is no expression. -/
def operandKinds : List NodeKind :=
  [.argument, .parenthesizedExpression, .memberAccessExpression, .memberBindingExpression,
    .invocationExpression, .elementAccessExpression, .conditionalAccessExpression,
    .prefixUnaryExpression, .awaitExpression, .throwExpression, .postfixUnaryExpression,
    .binaryExpression, .assignmentExpression, .isPatternExpression, .conditionalExpression,
    .initializerExpression, .simpleLambdaExpression, .parenthesizedLambdaExpression,
    .constantPattern]

/-- The operands that a node lists: behind the type of a cast, in front of the type of a test, and
all of them elsewhere. -/
def operands (t : Tree) (p : NodeId) : List NodeId :=
  if t.kind p = .castExpression then (t.childNodes p).drop 1
  else if t.kind p = .asExpression then (t.childNodes p).take 1
  else if t.kind p ∈ operandKinds then t.childNodes p
  else []

section Ruled

variable {ts : Array Token}

theorem isRuled_token (i : TokenId) : IsRuled ts (.token i) := by
  rintro _ _ _ _ ⟨⟩

theorem expr_le_each_isRuled : expr ts ≤ each (IsRuled ts) := part_le_each fun _ h => h.2

theorem operand_le_each_isRuled {g : Nat} : operand ts g ≤ each (IsRuled ts) :=
  part_le_each fun _ h => h.1.2

theorem a_le_each_isRuled (hk : k ∉ nameKinds) : Production.a k ≤ each (IsRuled ts) :=
  part_le_each fun _ h => isRuled_of h hk

/-- **The names among the parts of an expression are ruled by what follows them.** -/
theorem production_le_each_isRuled (hk : k ∈ operandKinds) :
    production ts k ≤ each (IsRuled ts) := by
  have hword : anyWord ts ≤ each (IsRuled ts) := word_le_each isRuled_token
  have hmark : ∀ {text}, mark ts text ≤ each (IsRuled ts) := fun {_} => word_le_each isRuled_token
  have hexpr : expr ts ≤ each (IsRuled ts) := expr_le_each_isRuled
  have hname : part (IsSimpleName ts) ≤ each (IsRuled ts) := part_le_each fun _ h => h.2
  have hone : ∀ {l : Language Shape}, l ≤ each (IsRuled ts) → [l].prod ≤ each (IsRuled ts) :=
    fun hl => cons_le_each hl nil_le_each
  -- Names stand in these productions as expressions or as simple names, and both are ruled.
  cases k with
  | argument =>
    exact cons_le_each (opt_le_each (a_le_each_isRuled (by decide))) <|
      cons_le_each (opt_le_each hword) (hone hexpr)
  | parenthesizedExpression => exact cons_le_each hmark (cons_le_each hexpr (hone hmark))
  | memberAccessExpression => exact cons_le_each hexpr (cons_le_each hword (hone hname))
  | memberBindingExpression => exact hname
  | invocationExpression | elementAccessExpression =>
    exact cons_le_each hexpr (hone (a_le_each_isRuled (by decide)))
  | conditionalAccessExpression => exact cons_le_each hexpr (cons_le_each hword (hone hexpr))
  | prefixUnaryExpression | awaitExpression | throwExpression =>
    exact cons_le_each hword (hone hexpr)
  | postfixUnaryExpression => exact cons_le_each hexpr (hone (word_le_each isRuled_token))
  | binaryExpression =>
    exact production_binary_le.trans <| cons_le_each hexpr <| cons_le_each hword <|
      cons_le_each (opt_le_each hword) (hone hexpr)
  | assignmentExpression =>
    exact cons_le_each hexpr <| cons_le_each hword <| cons_le_each (opt_le_each hword) (hone hexpr)
  | isPatternExpression =>
    have hpattern : part IsPattern ≤ each (IsRuled ts) := by
      refine part_le_each fun s ⟨id, k, cs, hs, hk⟩ => isRuled_of ⟨id, k, cs, hs, rfl⟩ ?_
      intro hname
      rcases List.mem_pair.mp hname with rfl | rfl <;> cases hk
    exact cons_le_each operand_le_each_isRuled (cons_le_each hword (hone hpattern))
  | conditionalExpression =>
    exact cons_le_each operand_le_each_isRuled <| cons_le_each hword <| cons_le_each hexpr <|
      cons_le_each hmark (hone hexpr)
  | initializerExpression =>
    exact enclosed_le_each isRuled_token (listed_le_each isRuled_token hexpr)
  | simpleLambdaExpression | parenthesizedLambdaExpression =>
    exact cons_le_each (opt_le_each hword) <| cons_le_each (a_le_each_isRuled (by decide)) <|
      hone <| cons_le_each hmark <|
        hone (add_le_each (a_le_each_isRuled (by decide)) hexpr)
  | constantPattern => exact hexpr
  | _ => exact absurd hk (by decide)

end Ruled

/-- A name that is ruled in the shape that stands at its node. -/
theorem InOrder.generic_iff_of_isRuled (h : InOrder t) {cs : List Shape}
    (hs : Stands t (.node m k cs)) (hruled : IsRuled t.tokens (.node m k cs))
    (hk : t.kind m ∈ nameKinds) :
    t.kind m = .genericName ↔ TakesArguments t.tokens (t.firstToken m) := by
  obtain rfl := hs.kind_eq
  cases id hs with
  | node _ _ hchildren hword _ =>
    -- a name begins with a token of its own
    have hfirst : ∃ i rest, cs = .token i :: rest := by
      rcases List.mem_pair.mp hk with hk | hk
      · rw [hk] at hword
        obtain ⟨i, -, -, rfl⟩ := hword
        exact ⟨i, [], rfl⟩
      · rw [hk] at hword
        obtain ⟨_, ⟨i, -, -, rfl⟩, rest, -, rfl⟩ := mem_prod_cons.mp hword
        exact ⟨i, rest, rfl⟩
    obtain ⟨i, rest, rfl⟩ := hfirst
    have hi : t.firstToken m = i := h.firstToken_eq hchildren
    obtain ⟨hgeneric, hidentifier⟩ := hruled m _ i rest rfl
    rw [hi]
    refine ⟨hgeneric, fun htakes => ?_⟩
    exact (List.mem_pair.mp hk).resolve_left fun hk => hidentifier hk htakes

/-- **A name in an expression has type arguments where what follows them cannot begin an operand**,
and it has none elsewhere. -/
theorem InOrder.generic_iff_of_operand (h : InOrder t) (hm : m ∈ t.operands p)
    (hk : t.kind m ∈ nameKinds) :
    t.kind m = .genericName ↔ TakesArguments t.tokens (t.firstToken m) := by
  have hwords : ∀ {l : Language Shape} {ns : List NodeId}, Words t l ns →
      l ≤ each (IsRuled t.tokens) → m ∈ ns →
      (t.kind m = .genericName ↔ TakesArguments t.tokens (t.firstToken m)) := by
    intro l ns hl hruled hmem
    obtain ⟨k, cs, hs, hcs⟩ := hl.each hruled m hmem
    exact h.generic_iff_of_isRuled hs hcs hk
  unfold operands at hm
  split at hm
  -- Behind the type of a cast stands the operand.
  next hcast =>
    have hl : Words t [anyWord t.tokens, plainType, mark t.tokens ")", expr t.tokens].prod
        (t.childNodes p) := h.parsed.words hcast (by decide)
    obtain ⟨type, rest, hn, -, -, hrest⟩ := hl.skip.plain
    rw [hn, List.drop_one, List.tail_cons] at hm
    refine hwords hrest.skip ?_ hm
    exact cons_le_each expr_le_each_isRuled nil_le_each
  split at hm
  -- In front of the type of a test stands the operand.
  next htest =>
    have hl : Words t [operand t.tokens (testLevel + 2), anyWord t.tokens, plainType].prod
        (t.childNodes p) := h.parsed.words htest (by decide)
    obtain ⟨xs, ys, hn, hx, -⟩ := hl.append
    obtain ⟨e, hxs, -⟩ := (hx.mono (operand_le_expr.trans expr_le)).of_kind
    rw [hn, hxs, List.singleton_append, List.take_succ_cons, List.take_zero] at hm
    rw [hxs] at hx
    exact hwords hx operand_le_each_isRuled hm
  split at hm
  next hp =>
    exact hwords (h.parsed.words rfl fun heq => absurd (heq ▸ hp) (by decide))
      (production_le_each_isRuled hp) hm
  next => cases hm

/-! ## Declarations

In the same way it can be read off what an argument declares.  Two comparisons side by side look
like type arguments, and are why arguments that spell a declaration are singled out. -/

/-- A node begins with the first leaf of the shape that stands there. -/
theorem InOrder.head?_leaves (h : InOrder t) {s : Shape} (hs : Stands t s) :
    s.leaves.head? = some (t.firstOf s.asChild) := by
  induction s using induct with
  | token i => simp [asChild, firstOf]
  | node id k cs ih =>
    cases hs with
    | node _ _ hchildren hword hall =>
      cases cs with
      | nil => exact absurd hword (nil_notMem_production t.tokens k)
      | cons c cs =>
        have hc := ih c List.mem_cons_self (hall c List.mem_cons_self)
        have hfirst : t.firstToken id = t.firstOf c.asChild := h.firstToken_eq hchildren
        rw [leaves_node, leavesOfList_cons, List.head?_append, hc, Option.some_or]
        exact congrArg some hfirst.symm

/-- If the shape is a node, it is an argument of a list that ends with the mark. -/
def IsListed (ts : Array Token) (close : String) (s : Shape) : Prop :=
  ∀ id k cs, s = .node id k cs → k = .argument ∧ cs ∈ handedOver ts close

/-- Whatever a list of arguments holds is an argument of it or a token. -/
theorem argumentsBetween_le_each {ts : Array Token} {opening close : String} :
    argumentsBetween ts opening close ≤ each (IsListed ts close) := by
  have htoken : ∀ i, IsListed ts close (.token i) := by rintro i _ _ _ ⟨⟩
  have hlisted : listedArgument ts close ≤ each (IsListed ts close) := by
    refine part_le_each ?_
    rintro s ⟨id, cs, hcs, rfl⟩ _ _ _ ⟨⟩
    exact ⟨rfl, hcs⟩
  exact enclosed_le_each htoken (opt_le_each (separated_le_each htoken hlisted))

/-- An argument that is read in front of a comma or a mark declares a variable exactly where a type
and a name stand there. -/
theorem InOrder.declaration_iff_of_handedOver (h : InOrder t) {close : String} {cs : List Shape}
    (hs : Stands t (.node a .argument cs)) (hcs : cs ∈ handedOver t.tokens close) :
    ∃ v, ArgumentView.ofNode? t a = some v ∧
      (t.kind v.expression = .declarationExpression ↔ v.SpellsDeclaration t close) := by
  have hwords : Words t (handedOver t.tokens close) (t.childNodes a) := hs.words hcs
  obtain ⟨labels, ys, hn, hlabels, hys⟩ := hwords.append
  have hvalue := hys.skipOption
  rw [List.prod_singleton] at hvalue
  obtain ⟨e, k, ds, rfl, he, hscanned⟩ := hvalue.of_part fun i ⟨⟨⟨_, _, _, hs, _⟩, _⟩, _⟩ => by
    cases hs
  obtain ⟨⟨⟨_, _, _, heq, hexpression⟩, -⟩, i, hfirst, hdeclares⟩ := hscanned
  cases heq
  obtain rfl := he.kind_eq
  -- what stands in front of the value is its label
  have hnone : labels.find? (fun c => t.kind c != .nameColon) = none := by
    rw [List.find?_eq_none]
    intro c hc
    have hkind : t.kind c = .nameColon :=
      hlabels.kinds (opt_le_each (part_le_each_ofKind fun _ hk => hk)) c hc
    simp [hkind]
  have hne : t.kind e ≠ .nameColon := fun heq => by
    rw [heq] at hexpression
    exact absurd hexpression (by decide)
  have hi : i = t.firstToken e := by
    rw [h.head?_leaves he] at hfirst
    exact (Option.some.inj hfirst).symm
  refine ⟨⟨a, t.childOfKind? a .nameColon, (t.childTokens a).head?, e⟩, ?_, ?_⟩
  · simp [ArgumentView.ofNode?, hs.kind_eq, hn, List.find?_append, hnone, hne]
  · rw [ArgumentView.SpellsDeclaration, ← hi, ← hdeclares]
    exact ⟨fun hk => ⟨e, _, ds, rfl, hk⟩, fun ⟨_, _, _, heq, hk⟩ => by cases heq; exact hk⟩

/-- **What an argument of a list declares**: a variable, where a type and a name stand in front of a
comma or of the mark that closes the list, and nothing elsewhere. -/
theorem InOrder.declaration_iff (h : InOrder t) {close : String} (hn : t.ListsArguments n close)
    (ha : a ∈ (SeparatedList.ofNode t n).items) :
    ∃ v, ArgumentView.ofNode? t a = some v ∧
      (t.kind v.expression = .declarationExpression ↔ v.SpellsDeclaration t close) := by
  have hitems : ∃ opening, Words t (argumentsBetween t.tokens opening close) (t.childNodes n) := by
    rcases hn with ⟨hk, rfl⟩ | ⟨hk, rfl⟩
    · exact ⟨"(", h.parsed.words hk (by decide)⟩
    · exact ⟨"[", h.parsed.words hk (by decide)⟩
  obtain ⟨opening, hwords⟩ := hitems
  obtain ⟨k, cs, hs, hlisted⟩ := hwords.each argumentsBetween_le_each a ha
  obtain ⟨rfl, hcs⟩ := hlisted a k cs rfl
  exact h.declaration_iff_of_handedOver hs hcs

/-- What is read of a list of arguments in which only arguments for results spell declarations. -/
structure OnlyOutDeclares (t : Tree) (n : NodeId) (close : String) : Prop where
  /-- An argument declares a variable where it spells a declaration, and then it is marked so. -/
  declaration : ∀ a ∈ (SeparatedList.ofNode t n).items, ∃ v, ArgumentView.ofNode? t a = some v ∧
    (t.kind v.expression = .declarationExpression ↔ v.SpellsDeclaration t close) ∧
    (t.kind v.expression = .declarationExpression → v.PassesOut t)
  /-- The commas of the list separate its arguments. -/
  length_items : (SeparatedList.ofNode t n).items ≠ [] →
    (SeparatedList.ofNode t n).items.length = (SeparatedList.ofNode t n).separators.length + 1
  /-- A name in an expression has type arguments by what follows them. -/
  generic_iff : ∀ p, ∀ m ∈ t.operands p, t.kind m ∈ nameKinds →
    (t.kind m = .genericName ↔ TakesArguments t.tokens (t.firstToken m))

/-- **Only arguments for results declare variables, as long as no other argument spells a
declaration.**  In every source that parses and every list of arguments in it, an argument declares
a variable exactly where its value is a type and a name in front of a comma or of the mark that
closes the list.  So if this is so in arguments for results only, no other argument declares
anything.  The list has one argument more than commas, and whether a comma behind a name and an
angle bracket is one of these depends on what follows the type arguments of the name. -/
theorem only_out_arguments_declare {source : String} (hparse : parse source = .ok t)
    {close : String} (hn : t.ListsArguments n close)
    (hfree : ∀ a ∈ (SeparatedList.ofNode t n).items, ∀ v, ArgumentView.ofNode? t a = some v →
      v.SpellsDeclaration t close → v.PassesOut t) :
    t.OnlyOutDeclares n close := by
  have h := inOrder_of_parse hparse
  refine ⟨fun a ha => ?_, h.length_items_of_arguments (hn.imp And.left And.left),
    fun p m hm hk => h.generic_iff_of_operand hm hk⟩
  obtain ⟨v, hv, hdeclares⟩ := h.declaration_iff hn ha
  exact ⟨v, hv, hdeclares, fun hk => hfree a ha v hv (hdeclares.mp hk)⟩

/-- A declaration, a comparison and a call with type arguments. -/
def mixedArguments : String :=
  "class C \x7b void M() \x7b F(out int x, a < b, G<int>(c)); \x7d \x7d"

/-- These are three arguments of one list. -/
theorem only_out_arguments_declare_mixed :
    ∃ t, parse mixedArguments = .ok t ∧
      t.OnlyOutDeclares 9 ")" ∧ (SeparatedList.ofNode t 9).items = [10, 14, 18] ∧
      t.kind 11 = .declarationExpression ∧ t.kind 16 = .binaryExpression ∧
      t.kind 19 = .genericName := by
  have hfacts : (parse mixedArguments).toOption.any
      (fun t => t.kind 9 = .argumentList ∧ (SeparatedList.ofNode t 9).items = [10, 14, 18] ∧
        t.kind 11 = .declarationExpression ∧ t.kind 16 = .binaryExpression ∧
        t.kind 19 = .genericName ∧
        ∀ a ∈ (SeparatedList.ofNode t 9).items, ∀ v ∈ ArgumentView.ofNode? t a,
          v.SpellsDeclaration t ")" → v.PassesOut t) = true := by
    decide +kernel
  cases h : parse mixedArguments with
  | error e =>
    rw [h] at hfacts
    cases hfacts
  | ok t =>
    rw [h] at hfacts
    obtain ⟨hlist, hitems, hdeclared, hcompared, hcalled, hfree⟩ := of_decide_eq_true hfacts
    exact ⟨t, rfl, only_out_arguments_declare h (.inl ⟨hlist, rfl⟩) hfree, hitems, hdeclared,
      hcompared, hcalled⟩

/-- Two comparisons that stand side by side. -/
def comparedArguments : String := "class C \x7b void M() \x7b F(a < b, c > d); \x7d \x7d"

/-- **Two comparisons are taken for one declaration.**  Behind the first name stand type arguments,
a name and the parenthesis that closes the list, and the argument is not marked. -/
theorem comparisons_read_as_declaration : ¬ ∀ (source : String) (t : Tree) (n : NodeId)
    (close : String), parse source = .ok t → t.ListsArguments n close →
      ∀ a ∈ (SeparatedList.ofNode t n).items, ∀ v, ArgumentView.ofNode? t a = some v →
        t.kind v.expression = .declarationExpression → v.PassesOut t := by
  intro hall
  have hfacts : (parse comparedArguments).toOption.any
      (fun t => t.kind 9 = .argumentList ∧ 10 ∈ (SeparatedList.ofNode t 9).items ∧
        ∃ v ∈ ArgumentView.ofNode? t 10, t.kind v.expression = .declarationExpression ∧
          ¬v.PassesOut t) = true := by
    decide +kernel
  cases h : parse comparedArguments with
  | error e =>
    rw [h] at hfacts
    cases hfacts
  | ok t =>
    rw [h] at hfacts
    obtain ⟨hlist, hitem, v, hv, hdeclares, hout⟩ := of_decide_eq_true hfacts
    exact hout (hall _ t 9 ")" h (.inl ⟨hlist, rfl⟩) 10 hitem v hv hdeclares)

end Tree

end CodeMend
