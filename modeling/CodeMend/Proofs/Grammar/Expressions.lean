import CodeMend.Proofs.Grammar.Settling
import CodeMend.Proofs.Grammar.Types

/-!
# CodeMend — expressions keep to the grammar of trees

One lemma for each rule of the grammar of expressions, in the order in which the rules build on one
another: names, arguments, creations, operands, operators, patterns and lambdas.

* **`makes_expression`**, **`makes_coalesce`**, **`makes_unary`**, **`makes_operators`**,
  **`makes_initializer`**, **`makes_pattern`** — the rules that have a nonterminal of their own.
-/

namespace CodeMend.Grammar

open CodeMend.Parser Production
open scoped Computability

section Expressions

variable {ts : Array Token} {rules : Rules} {n : Checkpoint} {P : Cursor → Prop}
  {front : List Shape} (hts : Ended ts) (hr : Sound ts rules)

theorem makes_expression_of {k : NodeKind} {p : Parser Shape} (h : Makes ts n P front p (IsA k))
    (hk : k ∈ compoundKinds) : Makes ts n P front p (IsExpression ts) :=
  Yields.mono h (fun _ hc => hc) fun _ hs => isExpression_of hs hk

theorem makes_operand_of {k : NodeKind} {p : Parser Shape} {g : Nat}
    (h : Makes ts n P front p (IsA k)) (hk : k ∈ tightKinds) (hg : g ≤ topGrade) :
    Makes ts n P front p (IsOperand ts g) :=
  Yields.mono h (fun _ hc => hc) fun _ hs => (isOperand_of_tight hs hk).mono hg

/-! ## Names and literals

Whether type arguments follow a name is for a scan to say, and the sort of the name is stated by
what follows it. -/

include hts

/-- A node around the next token. -/
theorem makes_single {k : NodeKind} (hk : production ts k = bareWord ts) :
    Makes ts n Bare [] (single k) (IsA k) :=
  Makes.node_at (.anew _) (fun _ _ h => h) (hk ▸ Reads.bump_bare hts)

include hr in
theorem makes_simpleName : Makes ts n P [] (simpleName rules) (IsSimpleName ts) := by
  refine Yields.choose fun c₀ hc₀ _ => ?_
  split
  · exact Yields.unexpected _
  next hid =>
  have hat : c₀.atIdentifier = true := by simpa using hid
  have hrule : atGenericName c₀ = true ↔ TakesArguments ts c₀.pos := by
    obtain ⟨tokens, i, id⟩ := c₀
    obtain rfl : tokens = ts := hc₀.tokens_eq
    exact Iff.rfl
  split
  next hgeneric =>
    refine Yields.mono (Makes.starting (Yields.at (makes_genericName hts hr) hat))
      (fun _ hc => hc) fun s ⟨⟨hs, _⟩, hfirst⟩ => ?_
    refine ⟨hs.mono fun k hk => hk ▸ (by decide), isRuled_of_head hfirst
      (fun _ => hrule.mp hgeneric) fun hidentifier => ?_⟩
    exact absurd (eq_of_isA hs hidentifier) (by decide)
  next hplain =>
    refine Yields.mono (Makes.starting (makes_identifierName hts (P := (· = c₀))
      fun _ hc => hc ▸ hat)) (fun _ hc => hc) fun s ⟨⟨hs, _⟩, hfirst⟩ => ?_
    refine ⟨hs.mono fun k hk => hk ▸ (by decide), isRuled_of_head hfirst (fun hgeneric => ?_)
      fun _ htakes => hplain (hrule.mpr htakes)⟩
    exact absurd (eq_of_isA hs hgeneric) (by decide)

include hr in
/-- A keyword applied to a type in parentheses. -/
theorem makes_typeOperator {k : NodeKind}
    (hk : production ts k = [anyWord ts, mark ts "(", plainType, mark ts ")"].prod) :
    Makes ts n Ahead [] (typeOperator rules k) (IsA k) := by
  refine Makes.node_ahead (.anew _) (hk ▸ ?_)
  exact (Reads.bump_ahead hts).seq_cons <|
    (Reads.expect hts "(").seq_cons <|
    (hr.type true).one.seq_cons <|
    (Reads.expect hts ")").single

/-! ## Arguments and declarations in expressions

An argument is a declaration or an expression, as the scan for a type and a name decides. -/

theorem makes_nameColon :
    Makes ts n (fun c => atNameColon c = true) [] nameColon (IsA .nameColon) := by
  refine Makes.node_at (.anew _) (fun _ _ h => h) ?_
  have hname : ∀ {n}, Makes ts n (fun c => atNameColon c = true) [] (single .identifierName)
      (IsA .identifierName) :=
    Yields.mono (makes_identifierName hts fun c hc => (Bool.and_eq_true _ _ ▸ hc).1)
      (fun _ hc => hc) fun _ hs => hs.1
  refine hname.one.seq_from (fun c x c' hc hat hrun => ?_)
    (Reads.bump_mark hts (P := fun c => c.atMark ":" = true) fun _ h => h).single
  -- the colon was seen behind the name, where the reader of the name stops
  obtain ⟨hid, hcolon⟩ := (Bool.and_eq_true _ _ ▸ hat :)
  obtain ⟨s, c₁, hsingle, hpure⟩ := bind_eq_ok hrun
  cases hpure
  obtain ⟨cs, c₂, hbump, rfl, rfl⟩ := exists_of_nodeSince hsingle
  have hinside : Inside ts { c with builder := c.builder.startNodeSince none .identifierName } :=
    ⟨hc.tokens_eq, hc.pos_lt⟩
  obtain ⟨htokens, hpos⟩ := pos_of_bump hts hinside (ahead_of_atIdentifier hid) hbump
  show (tokenAt _ _).isMark ":" = true
  rw [htokens, hpos]
  exact hcolon

theorem makes_singleVariableDesignation :
    Makes ts n P [] singleVariableDesignation (IsA .singleVariableDesignation) :=
  Makes.node (.anew _) ((Reads.expectIdentifier hts).mono identifier_le_bareWord)

include hr in
theorem makes_declarationExpression :
    Makes ts n P [] (declarationExpression rules) (IsA .declarationExpression) := by
  refine Makes.node (.anew _) (Reads.mono ?_ fun _ h => Or.inl h)
  exact (hr.type true).one.seq_cons (makes_singleVariableDesignation hts).one.single

include hr in
/-- A declaration is read where the scan for one succeeds, and nowhere else. -/
theorem makes_declarationOrExpression (followers : Scan.Followers) :
    Makes ts n P [] (declarationOrExpression rules followers) (IsScanned ts followers) := by
  refine Yields.choose fun c₀ hc₀ _ => ?_
  have htokens : c₀.tokens = ts := hc₀.tokens_eq
  split
  next hscan =>
    refine Yields.mono (Makes.starting (makes_declarationExpression hts hr)) (fun _ hc => hc)
      fun s ⟨hs, hfirst⟩ => ⟨isExpression_of hs (by decide), c₀.pos, hfirst, ?_⟩
    exact iff_of_true hs (htokens ▸ hscan)
  next hscan =>
    refine Yields.mono (Makes.starting hr.value) (fun _ hc => hc)
      fun s ⟨hs, hfirst⟩ => ⟨hs.1, c₀.pos, hfirst, ?_⟩
    exact iff_of_false hs.2 (htokens ▸ hscan)

omit hts in
theorem keyword_of_atMode {c : Cursor}
    (h : (c.atWord "ref" || c.atWord "out" || c.atWord "in") = true) :
    c.current.kind = .keyword := by
  simp only [Bool.or_eq_true] at h
  rcases h with (h | h) | h <;> exact kind_of_isKeyword h

omit hts in
theorem ahead_of_atMode {c : Cursor}
    (h : (c.atWord "ref" || c.atWord "out" || c.atWord "in") = true) : Ahead c := by
  simp [Ahead, keyword_of_atMode h]

include hr in
theorem reads_listedArgument (close : String) :
    Reads ts n P [] (one (argument rules close)) (listedArgument ts close) := by
  have hbody := (Reads.whenAt (n := 0) (P := anywhere) (makes_nameColon hts).one).seq_cons <|
    (Reads.whenAt (Reads.bump_any hts fun _ h => ahead_of_atMode h)).seq_cons <|
    (makes_declarationOrExpression hts hr { marks := [",", close] }).one.single
  exact Yields.here (Makes.node_of (.anew _) (fun _ _ h => h) hbody handedOver_le).one

include hr in
/-- Arguments between two marks. -/
theorem reads_arguments (opening close : String) :
    Reads ts n P [] (arguments rules opening close) (argumentsBetween ts opening close) :=
  (Reads.expect hts opening).seq_cons <|
    (Reads.whenAt (Reads.commaSeparated hts (reads_listedArgument hts hr close))).seq_cons
      (Reads.expect hts close).single

include hr in
theorem makes_argumentList : Makes ts n P [] (argumentList rules) (IsA .argumentList) :=
  Makes.node (.anew _) (reads_arguments hts hr "(" ")")

include hr in
theorem makes_bracketedArgumentList :
    Makes ts n P [] (bracketedArgumentList rules) (IsA .bracketedArgumentList) :=
  Makes.node (.anew _) (reads_arguments hts hr "[" "]")

/-! ## Tuples

Until the first comma or label a parenthesis may begin either form, so an element is read before it
is known what it is an element of. -/

include hr in
/-- An element of a tuple; when it can be something else, it is an expression. -/
theorem yields_tupleElement :
    Yields ts n P [] Prod.fst (tupleElement rules) fun x =>
      x.1 ∈ [opt (a .nameColon), expr ts].prod ∧ (x.2 = false → x.1 ∈ expr ts) := by
  -- behind the name a value is read, whatever the name was
  have hvalue : ∀ (name : List Shape) (named : Bool), (∀ s ∈ name, Conforms ts s) →
      name ∈ opt (a .nameColon) → (named = false → name = []) →
      Yields ts n anywhere name Prod.fst
        (do
          let c ← get
          let declares := (Scan.typedName? c.tokens c.pos { marks := [",", ")"] }).isSome
          let value ← if declares then declarationExpression rules else rules .expression
          return (name ++ [value], named || declares) : Parser (List Shape × Bool))
        fun x => x.1 ∈ [opt (a .nameColon), expr ts].prod ∧ (x.2 = false → x.1 ∈ expr ts) := by
    intro name named hname' hname hnil
    have hwhole : ∀ (value : Shape) (forced : Bool), IsExpression ts value →
        (∀ s ∈ [value], Conforms ts s) → (forced = false → name = []) →
        Yields ts n anywhere (name ++ [value]) Prod.fst
          (pure (name ++ [value], forced) : Parser (List Shape × Bool))
          fun x => x.1 ∈ [opt (a .nameColon), expr ts].prod ∧ (x.2 = false → x.1 ∈ expr ts) := by
      intro value forced hexpr hexpr' hforced
      refine Yields.pure (V := Prod.fst) (x := (name ++ [value], forced))
        (conforms_append hname' hexpr') ⟨?_, fun h => ?_⟩
      · exact append_mem_prod hname (mem_prod_singleton (mem_part hexpr))
      · obtain rfl := hforced h
        exact mem_part hexpr
    refine Yields.get fun c₀ _ _ => ?_
    dsimp only
    cases hdeclares : (Scan.typedName? c₀.tokens c₀.pos { marks := [",", ")"] }).isSome with
    | true =>
      refine Yields.bind_behind
        (makes_expression_of (makes_declarationExpression hts hr) (by decide))
        fun value hexpr hexpr' => ?_
      exact hwhole value _ hexpr hexpr' (by simp)
    | false =>
      refine Yields.bind_behind hr.expression fun value hexpr hexpr' => ?_
      exact hwhole value _ hexpr hexpr' (by simpa using hnil)
  refine Yields.get fun c₀ _ _ => ?_
  cases hnamed : atNameColon c₀ with
  | true =>
    refine Yields.bind (V := id) (Reads.whenAt (makes_nameColon hts).one)
      fun name hname hname' => ?_
    exact hvalue name true hname' hname (by simp)
  | false =>
    refine Yields.bind (V := id)
      (Reads.whenAt_of_not fun c hc => hc ▸ hnamed) fun name hname hname' => ?_
    obtain rfl := (Language.mem_one name).mp hname
    exact hvalue [] false hname' nil_mem_opt fun _ => rfl

omit hts in
/-- An element of a tuple makes an argument that is passed by value. -/
theorem mem_argument_of_mem {x : List Shape} (hx : x ∈ [opt (a .nameColon), expr ts].prod) :
    x ∈ production ts .argument := by
  obtain ⟨name, hname, value, hvalue, rfl⟩ := mem_prod_cons.mp hx
  exact append_mem_prod hname (append_mem_prod nil_mem_opt hvalue)

include hr in
theorem makes_tupleArgument :
    Makes ts n P [] (node .argument do return (← tupleElement rules).1) (IsA .argument) := by
  refine Makes.node (.anew _) (Yields.bind (yields_tupleElement hts hr) fun x hx hx' => ?_)
  exact Yields.pure (V := id) hx' (mem_argument_of_mem hx.1)

include hr in
/-- A parenthesized expression or a tuple. -/
theorem makes_parenthesizedOrTuple : Makes ts n P [] (parenthesizedOrTuple rules)
    (IsOperand ts topGrade) := by
  refine Yields.checkpoint ?_
  refine Yields.bind (V := id) (Reads.expect hts "(") fun opening hopening hopening' => ?_
  refine Yields.checkpoint ?_
  refine Yields.bind_behind (yields_tupleElement hts hr) fun x hx hx' => ?_
  obtain ⟨first, forced⟩ := x
  refine Yields.get fun c₀ _ _ => ?_
  split
  next =>
    refine Yields.bind_stop (a := opening) (S := anywhere)
      (Makes.node_pure (.since _ _) hx' (mem_argument_of_mem hx.1)) (fun _ _ _ _ => trivial)
      fun argument hargument hargument' => ?_
    -- A comma, or a first element that can be nothing else: a tuple.
    have hnext : ∀ {n}, Reads ts n (fun c => c.atMark "," = true) [] (seq [bump,
        one (node .argument do return (← tupleElement rules).1)]) [mark ts ",", a .argument].prod :=
      (Reads.bump_mark hts fun _ h => h).seq_cons (makes_tupleArgument hts hr).one.single
    refine Yields.bind_behind (V := id) (Reads.manyWhile hnext) fun more hmore hmore' => ?_
    refine Yields.bind_behind (V := id) (Reads.expect hts ")") fun close hclose hclose' => ?_
    refine makes_operand_of (k := .tupleExpression) (Makes.node_pure (.since _ _) (conforms_append
      (conforms_append (conforms_append hopening' hargument') hmore') hclose') ?_)
      (by decide) le_rfl
    have hitems : [argument] ++ more ∈ separated ts (a .argument) := by
      rw [List.prod_cons, List.prod_singleton] at hmore
      exact Language.append_mem_mul (mem_part hargument) hmore
    simp only [id_eq, List.append_assoc]
    rw [← List.append_assoc [argument]]
    exact append_mem_prod hopening (append_mem_prod hitems (mem_prod_singleton hclose))
  next hforced =>
    refine Yields.bind_behind (V := id) (Reads.expect hts ")") fun close hclose hclose' => ?_
    refine makes_operand_of (k := .parenthesizedExpression) (Makes.node_pure (.since _ _)
      (conforms_append (conforms_append hopening' hx') hclose') ?_) (by decide) le_rfl
    -- The first element was not forced to be one of a tuple, so it is an expression.
    have hfirst : first ∈ expr ts := by
      simp only [Bool.or_eq_true, not_or, Bool.not_eq_true] at hforced
      exact hx.2 hforced.2
    rw [List.append_assoc]
    exact append_mem_prod hopening (append_mem_prod hfirst (mem_prod_singleton hclose))

theorem makes_deconstructionDeclaration :
    Makes ts n (fun c => atDeconstruction c = true) [] deconstructionDeclaration
      (IsA .declarationExpression) := by
  have hid : ∀ c, atDeconstruction c = true → c.atIdentifier = true := by
    intro c h
    simp only [atDeconstruction, Bool.and_eq_true] at h
    simp [Cursor.atIdentifier, Token.isIdentifier, kind_of_isContextual h.1.1]
  have hnames : ∀ {n}, Reads ts n anywhere []
      (seq [expect "(", commaSeparated (one singleVariableDesignation), expect ")"])
      (production ts .parenthesizedVariableDesignation) :=
    (Reads.expect hts "(").seq_cons <|
      (Reads.commaSeparated hts (makes_singleVariableDesignation hts).one).seq_cons <|
      (Reads.expect hts ")").single
  refine Makes.node_at (.anew _) (fun _ _ h => h) (Reads.mono ?_ fun _ h => Or.inr h)
  have hvar : ∀ {n}, Makes ts n (fun c => atDeconstruction c = true) [] (single .identifierName)
      (IsA .identifierName) :=
    Yields.mono (makes_identifierName hts hid) (fun _ hc => hc) fun _ hs => hs.1
  exact hvar.one.seq_cons (Makes.node (.anew _) hnames).one.single

/-! ## Creation

The type of a creation may have brackets with sizes, in which expressions stand. -/

include hr in
theorem makes_initializer :
    Makes ts n P [] (initializer rules) (IsA .initializerExpression) := by
  have hitem : ∀ {n}, Reads ts n anywhere []
      (choose fun c => one (rules (if c.atMark "\x7b" then .initializer else .expression)))
      (expr ts) := by
    refine Yields.choose fun c₀ _ _ => ?_
    split
    · exact (makes_expression_of hr.initializer (by decide)).one
    · exact hr.expression.one
  refine Makes.node (.anew _) ?_
  exact (Reads.expect hts "\x7b").seq_cons <|
    (Reads.commaItems hts "\x7d" hitem).seq_cons <|
    (Reads.expect hts "\x7d").single

include hr in
/-- Brackets with sizes. -/
theorem makes_sizedRank :
    Makes ts n (fun c => c.atMark "[" = true) [] (sizedRank rules) (IsA .arrayRankSpecifier) := by
  have hsize : ∀ {n}, Reads ts n (fun c => (!c.atMark "]") = true) []
      (choose fun c => if c.atMark "," then bump else one (rules .expression))
      (anyWord ts + expr ts) := by
    refine Yields.choose fun c₀ _ _ => ?_
    split
    next hcomma =>
      exact Yields.at (Reads.mono (Reads.bump_any hts (P := fun c => c.atMark "," = true)
        fun _ h => ahead_of_atMark h) fun _ h => Or.inl h) hcomma
    next => exact hr.expression.one.mono fun _ h => Or.inr h
  refine Makes.node_at (.anew _) (fun _ _ h => h) ?_
  exact (Reads.bump_mark hts fun _ h => h).seq_cons <|
    Reads.manyWhile_cons hsize (Reads.bump_mark hts fun c hc => by simpa using hc).single

omit hts in
include hr in
theorem reads_optionalInitializer :
    Reads ts n P [] (optionalInitializer rules) (opt (a .initializerExpression)) :=
  Reads.whenAt hr.initializer.one

include hr in
theorem reads_optionalArguments :
    Reads ts n P [] (optionalArguments rules) (opt (a .argumentList)) :=
  Reads.whenAt (makes_argumentList hts hr).one

include hr in
theorem makes_creation : Makes ts n P [] (creation rules) (IsOperand ts topGrade) := by
  refine Yields.checkpoint ?_
  refine Yields.bind (V := id) (Reads.expectWord hts "new") fun new hnew hnew' => ?_
  have hword : new ∈ anyWord ts := word_le_anyWord hnew
  have hbare : new ∈ bareWord ts := keyword_le_bareWord hnew
  refine Yields.get fun c₀ _ _ => ?_
  split
  · -- neither a type nor sizes
    refine Yields.bind_behind (V := id)
      ((reads_optionalArguments hts hr).seq_cons (reads_optionalInitializer hr).single)
      fun parts hparts hparts' => ?_
    exact makes_operand_of
      (Makes.node_pure (.since _ _) (conforms_append hnew' hparts') (append_mem_prod hbare hparts))
      (by decide) le_rfl
  split
  next hbracket =>
    have hbody : ∀ {n}, Reads ts n (fun c => c.atMark "[" = true) []
        (seq [bump, manyWhile (·.atMark ",") bump, expect "]", one (rules .initializer)])
        [anyWord ts, (anyWord ts)∗, mark ts "]", a .initializerExpression].prod :=
      (Reads.bump_any hts fun _ h => ahead_of_atMark h).seq_cons <|
        (Reads.manyWhile (Reads.bump_any hts fun _ h => ahead_of_atMark h)).seq_cons <|
        (Reads.expect hts "]").seq_cons hr.initializer.one.single
    refine Yields.bind_behind (V := id) (Yields.at hbody hbracket) fun parts hparts hparts' => ?_
    exact makes_operand_of
      (Makes.node_pure (.since _ _) (conforms_append hnew' hparts') (append_mem_prod hword hparts))
      (by decide) le_rfl
  next =>
    refine Yields.checkpoint ?_
    refine Yields.bind_behind (hr.type true) fun element helement helement' => ?_
    refine Yields.get fun c₁ _ _ => ?_
    split
    next hbracket =>
      have hbody : ∀ {n}, Reads ts n anywhere [element]
          (seq [pure [element], manyWhile (·.atMark "[") (one (sizedRank rules))])
          (production ts .arrayType) :=
        Reads.seq_shape helement (helement' element (List.mem_singleton_self element)) <|
          (Reads.manyWhile (makes_sizedRank hts hr).one).single
      refine Yields.bind_stop (a := new) (S := anywhere) (Makes.node (.since _ _) hbody)
        (fun _ _ _ _ => trivial) fun array harray harray' => ?_
      have htype : HasKind (fun k => k.isType = true) array := harray.mono fun _ hk => hk ▸ rfl
      refine Yields.bind_behind (V := id) (reads_optionalInitializer hr) fun init hinit hinit' => ?_
      refine makes_operand_of (Makes.node_pure (.since _ _)
        (conforms_append (conforms_append hnew' harray') hinit') ?_) (by decide) le_rfl
      rw [List.append_assoc]
      exact append_mem_prod hword (append_mem_prod (mem_part htype) (mem_prod_singleton hinit))
    split
    · refine Yields.bind_behind (V := id) hr.initializer.one fun init hinit hinit' => ?_
      refine makes_operand_of (Makes.node_pure (.since _ _)
        (conforms_append (conforms_append hnew' helement') hinit') ?_) (by decide) le_rfl
      rw [List.append_assoc]
      exact append_mem_prod hword
        (append_mem_prod (mem_part helement.1) (mem_prod_singleton (mem_opt_of_mem hinit)))
    · refine Yields.bind_behind (V := id)
        ((reads_optionalArguments hts hr).seq_cons (reads_optionalInitializer hr).single)
        fun parts hparts hparts' => ?_
      refine makes_operand_of (Makes.node_pure (.since _ _)
        (conforms_append (conforms_append hnew' helement') hparts') ?_) (by decide) le_rfl
      rw [List.append_assoc]
      exact append_mem_prod hword (append_mem_prod (mem_part helement) hparts)

/-! ## Operands

From here on each rule makes an operand of some grade.  Operators behind an operand are read in a
loop that keeps the grade. -/

include hr in
theorem makes_primary : Makes ts n P [] (primary rules) (IsOperand ts topGrade) := by
  refine Yields.choose fun c₀ _ _ => ?_
  -- Most operands are single tokens, or a keyword with a type in parentheses.
  have hsingle : ∀ k : NodeKind, production ts k = bareWord ts → k ∈ tightKinds → Bare c₀ →
      Makes ts n (· = c₀) [] (single k) (IsOperand ts topGrade) := by
    intro k hk hkind hbare
    exact Yields.at (makes_operand_of (makes_single hts hk) hkind le_rfl) hbare
  have hoperator : ∀ k : NodeKind,
      production ts k = [anyWord ts, mark ts "(", plainType, mark ts ")"].prod →
      k ∈ tightKinds → Ahead c₀ →
      Makes ts n (· = c₀) [] (typeOperator rules k) (IsOperand ts topGrade) := by
    intro k hk hkind hahead
    exact Yields.at (makes_operand_of (makes_typeOperator hts hr hk) hkind le_rfl) hahead
  have hbare : ∀ {k : TokenKind}, c₀.current.kind = k → k ≠ .punctuation ∧ k ≠ .endOfFile →
      Bare c₀ := by
    rintro _ rfl hne
    exact hne
  dsimp only
  split
  next h => exact hsingle _ rfl (by decide) (hbare h (by decide))
  next h => exact hsingle _ rfl (by decide) (hbare h (by decide))
  next h => exact hsingle _ rfl (by decide) (hbare h (by decide))
  next h => exact hsingle _ rfl (by decide) (hbare h (by decide))
  next h =>
    split
    next hat =>
      exact makes_operand_of (Yields.at (makes_deconstructionDeclaration hts) hat)
        (by decide) le_rfl
    next =>
      exact Yields.mono (makes_simpleName hts hr) (fun _ h => h) fun _ =>
        isOperand_of_isSimpleName
  next h =>
    -- A keyword: each test asks for another word.
    have hword := hbare h (by decide)
    split
    · exact hsingle _ rfl (by decide) hword
    split
    · exact hsingle _ rfl (by decide) hword
    split
    · exact hsingle _ rfl (by decide) hword
    split
    · exact makes_creation hts hr
    split
    · exact hoperator _ rfl (by decide) hword.2
    split
    · split
      · exact hoperator _ rfl (by decide) hword.2
      · exact hsingle _ rfl (by decide) hword
    split
    · exact hsingle _ rfl (by decide) hword
    · exact Yields.unexpected _
  next h =>
    split
    · exact makes_parenthesizedOrTuple hts hr
    · exact Yields.unexpected _
  next => exact Yields.unexpected _

include hr in
/-- The operators behind an operand, conditional access left aside. -/
theorem makes_operandSuffixes {s : Shape} {g : Nat} (hg : g ≤ topGrade) (hs : IsOperand ts g s)
    (hconforms : Conforms ts s) :
    Makes ts n P [s] (grow (operandSuffix? rules n) s) (IsOperand ts g) := by
  refine Makes.grow ?_ hs hconforms
  intro c₀ wrap s _ hstep hs hconforms
  unfold operandSuffix? at hstep
  split at hstep
  next hat =>
    obtain rfl := Option.some.inj hstep
    have hahead : Ahead c₀ := by
      simp only [Bool.or_eq_true] at hat
      exact hat.elim ahead_of_atMark ahead_of_atMark
    have hbody : ∀ {n}, Reads ts n Ahead [s] (seq [pure [s], bump, one (simpleName rules)])
        (production ts .memberAccessExpression) :=
      Reads.seq_shape hs.1 hconforms <|
        (Reads.bump_ahead hts).seq_cons (makes_simpleName hts hr).one.single
    exact Yields.at (makes_operand_of (Makes.node_ahead (.since _ _) hbody) (by decide) hg) hahead
  next =>
  split at hstep
  next =>
    obtain rfl := Option.some.inj hstep
    have hbody : ∀ {n}, Reads ts n anywhere [s] (seq [pure [s], one (argumentList rules)])
        (production ts .invocationExpression) :=
      Reads.seq_shape hs.1 hconforms (makes_argumentList hts hr).one.single
    exact makes_operand_of (Makes.node (.since _ _) hbody) (by decide) hg
  next =>
  split at hstep
  next =>
    obtain rfl := Option.some.inj hstep
    have hbody : ∀ {n}, Reads ts n anywhere [s] (seq [pure [s], one (bracketedArgumentList rules)])
        (production ts .elementAccessExpression) :=
      Reads.seq_shape hs.1 hconforms (makes_bracketedArgumentList hts hr).one.single
    exact makes_operand_of (Makes.node (.since _ _) hbody) (by decide) hg
  next =>
  split at hstep
  next hat =>
    obtain rfl := Option.some.inj hstep
    have hpostfix : IsPostfix c₀.current ∧ Ahead c₀ := by
      simp only [Bool.or_eq_true] at hat
      rcases hat with (hat | hat) | hat
      · exact ⟨.inl hat, ahead_of_atMark hat⟩
      · exact ⟨.inr (.inl hat), ahead_of_atMark hat⟩
      · have hmark := (Bool.and_eq_true _ _ ▸ hat).1
        exact ⟨.inr (.inr hmark), ahead_of_atMark hmark⟩
    have hbody : ∀ {n}, Reads ts n (fun c => IsPostfix c.current ∧ Ahead c) [s]
        (seq [pure [s], bump]) (production ts .postfixUnaryExpression) :=
      Reads.seq_shape hs.1 hconforms (Reads.bump hts fun _ h => h).single
    exact Yields.at (makes_operand_of (Makes.node_at (.since _ _) (fun _ _ h => h) hbody)
      (by decide) hg) hpostfix
  next => cases hstep

omit hts in
include hr in
/-- What follows a conditional access. -/
theorem makes_accessed {binding : Parser Shape} {k : NodeKind}
    (hbinding : ∀ {n}, Makes ts n anywhere [] binding (IsA k)) (hk : k ∈ compoundKinds) :
    Makes ts n P [] (accessed rules binding) (IsExpression ts) := by
  refine Yields.here <| Yields.checkpoint <|
    Yields.bind (makes_expression_of hbinding hk) fun s hs hall => ?_
  exact hr.operators hs (hall s (List.mem_singleton_self s))

include hr in
theorem makes_operators {s : Shape} {g : Nat} (hg : g ≤ topGrade) (hs : IsOperand ts g s)
    (hconforms : Conforms ts s) : Makes ts n P [s] (operators rules n s) (IsOperand ts g) := by
  refine Yields.bind (makes_operandSuffixes hts hr hg hs hconforms) fun e he hall => ?_
  have hconforms : Conforms ts e := hall e (List.mem_singleton_self e)
  refine Yields.get fun c₀ _ _ => ?_
  have hmember : ∀ {n}, Makes ts n anywhere []
      (node .memberBindingExpression (one (simpleName rules))) (IsA .memberBindingExpression) :=
    Makes.node (.anew _) (makes_simpleName hts hr).one
  have helement : ∀ {n}, Makes ts n anywhere []
      (node .elementBindingExpression (one (bracketedArgumentList rules)))
      (IsA .elementBindingExpression) :=
    Makes.node (.anew _) (makes_bracketedArgumentList hts hr).one
  split
  next hat =>
    refine Yields.at (P := Ahead) (makes_operand_of (k := .conditionalAccessExpression)
      (Makes.node_ahead (.since _ _) ?_) (by decide) hg) (ahead_of_atMark hat)
    exact Reads.seq_shape he.1 hconforms <| (Reads.bump_ahead hts).seq_cons <|
      (makes_accessed hr hmember (by decide)).one.single
  next =>
  split
  next hat =>
    refine Yields.at (P := Ahead) (makes_operand_of (k := .conditionalAccessExpression)
      (Makes.node_ahead (.since _ _) ?_) (by decide) hg)
      (ahead_of_atMark (Bool.and_eq_true _ _ ▸ hat).1)
    exact Reads.seq_shape he.1 hconforms <| (Reads.bump_ahead hts).seq_cons <|
      (makes_accessed hr helement (by decide)).one.single
  next => exact Yields.pure (V := fun s => [s]) (by simpa using hconforms) he

include hr in
theorem makes_fullOperand : Makes ts n P [] (fullOperand rules) (IsOperand ts topGrade) := by
  refine Yields.checkpoint <| Yields.bind (makes_primary hts hr) fun s hs hall => ?_
  exact makes_operators hts hr le_rfl hs (hall s (List.mem_singleton_self s))

include hr in
theorem makes_unary : Makes ts n P [] (unary rules) (IsOperand ts topGrade) := by
  refine Yields.choose fun c₀ _ _ => ?_
  have hprefix : ∀ {k : NodeKind} {operand : Parser Shape},
      production ts k = [anyWord ts, expr ts].prod → k ∈ tightKinds →
      (∀ {n}, Makes ts n anywhere [] operand (IsExpression ts)) → Ahead c₀ →
      Makes ts n (· = c₀) [] (node k (seq [bump, one operand])) (IsOperand ts topGrade) := by
    intro k operand hk hkind hoperand hahead
    refine Yields.at (P := Ahead)
      (makes_operand_of (Makes.node_ahead (.anew _) (hk ▸ ?_)) hkind le_rfl) hahead
    exact (Reads.bump_ahead hts).seq_cons hoperand.one.single
  split
  next hat =>
    obtain ⟨m, -, hm⟩ := List.any_eq_true.mp hat
    exact hprefix rfl (by decide) hr.unary (ahead_of_atMark hm)
  split
  next hat =>
    exact hprefix rfl (by decide) hr.unary (ahead_of_atContextual (Bool.and_eq_true _ _ ▸ hat).1)
  split
  next hat => exact hprefix rfl (by decide) hr.expression (ahead_of_atWord hat)
  split
  next hat =>
    refine Yields.at (P := Ahead) (makes_operand_of (k := .castExpression)
      (Makes.node_ahead (.anew _) ?_) (by decide) le_rfl)
      (ahead_of_atMark (Bool.and_eq_true _ _ ▸ hat).1)
    exact (Reads.bump_ahead hts).seq_cons <| (hr.type true).one.seq_cons <|
      (Reads.expect hts ")").seq_cons hr.unary.one.single
  next => exact makes_fullOperand hts hr

/-! ## Binary operators

The levels are one rule with the list of tighter levels as a parameter.  The induction is on that
list, and the loop over the operators of a level makes each operation lean to the left. -/

/-- The second token of an operator that has two. -/
theorem reads_secondToken (count : Nat) :
    Reads ts n P [] (whenAt (fun _ => count == 2) bump) (opt (anyWord ts)) := by
  refine (Reads.whenAt (Reads.bump_loose hts)).mono fun x hx => ?_
  rcases mem_opt_iff.mp hx with rfl | hx
  · exact nil_mem_opt
  · exact hx

omit hts in
/-- Where an operator of two tokens was seen, the second one follows the first. -/
theorem operator_cases {level : BinaryLevel} {c : Cursor} {n : Nat}
    (hlevel : level ∈ binaryLevels) (h : level.operator? c = some n) :
    (n = 1 ∧ level.marks.any c.atMark = true) ∨
      (n = 2 ∧ level.isShift = true ∧ c.atMark ">" = true ∧ (c.nth 1).isMark ">" = true) := by
  have hclose : ∀ level ∈ binaryLevels, level.isRelational = true → ">" ∈ level.marks := by decide
  unfold BinaryLevel.operator? at h
  split at h
  next hat =>
    dsimp only at h
    split at h
    next hshift =>
      cases h
      obtain ⟨hshift, hglued⟩ := (Bool.and_eq_true _ _ ▸ hshift :)
      exact .inr ⟨rfl, hshift, hat, (Bool.and_eq_true _ _ ▸ hglued).1⟩
    next =>
    split at h
    next htest =>
      cases h
      simp only [Bool.and_eq_true] at htest
      exact .inl ⟨rfl, List.any_eq_true.mpr ⟨">", hclose level hlevel htest.1.1, hat⟩⟩
    next => cases h
  next =>
    split at h
    next hany =>
      cases h
      exact .inl ⟨rfl, hany⟩
    next => cases h

omit hts in
theorem ahead_of_operator? {level : BinaryLevel} {c : Cursor} {n : Nat}
    (hlevel : level ∈ binaryLevels) (h : level.operator? c = some n) : Ahead c := by
  rcases operator_cases hlevel h with ⟨-, hany⟩ | ⟨-, -, hat, -⟩
  · obtain ⟨m, -, hm⟩ := List.any_eq_true.mp hany
    exact ahead_of_atMark hm
  · exact ahead_of_atMark hat

/-- An operator of a level that was seen ahead, and its right operand. -/
theorem reads_operation {level : BinaryLevel} (hlevel : level ∈ binaryLevels) {count : Nat}
    {right : Parser (List Shape)} {l : Language Shape}
    (hright : ∀ {n}, Reads ts n anywhere [] right l) :
    Reads ts n (fun c => level.operator? c = some count) []
      (seq [bump, whenAt (fun _ => count == 2) bump, right]) [operatorOf ts level, l].prod := by
  have hall : ∀ c₀, level.operator? c₀ = some count → Reads ts n (· = c₀) []
      (seq [bump, whenAt (fun _ => count == 2) bump, right]) [operatorOf ts level, l].prod := by
    intro c₀ h
    have hahead := ahead_of_operator? hlevel h
    simp only [operatorOf, List.prod_cons, List.prod_nil, mul_one]
    rcases operator_cases hlevel h with ⟨rfl, hany⟩ | ⟨rfl, hshift, hat, hnext⟩
    · have hone : ∀ {n}, Reads ts n (· = c₀) [] (seq [bump, whenAt (fun _ => 1 == 2) bump, right])
          [word ts (fun t => level.marks.any t.isMark = true), 1, l].prod :=
        (Reads.bump hts fun _ hc => hc ▸ ⟨hany, hahead⟩).seq_cons <|
          (Reads.whenAt_of_not fun _ _ => rfl).seq_cons hright.single
      refine hone.mono ?_
      rw [List.prod_cons, List.prod_cons, one_mul, List.prod_singleton]
      exact mul_le_mul' le_sup_left le_rfl
    · -- the second bracket stands where the reader of the first one stops
      have hsecond : ∀ {n}, Reads ts n (fun c => c.atMark ">" = true) []
          (whenAt (fun _ => 2 == 2) bump) (mark ts ">") := by
        refine Yields.get fun c₁ _ hc₁ => ?_
        rw [if_pos (by rfl)]
        exact Reads.bump_mark hts fun _ hc => hc ▸ hc₁
      have hfirst : ∀ {n}, Reads ts n (· = c₀) [] bump (mark ts ">") :=
        Reads.bump_mark hts fun _ hc => hc ▸ hat
      have hboth := hfirst.seq_from (n := n) (fun c x c' hc heq hrun => ?_)
        (hsecond.seq_cons hright.single)
      · refine hboth.mono ?_
        rw [List.prod_cons, List.prod_cons, List.prod_singleton, ← mul_assoc, if_pos hshift]
        exact mul_le_mul' le_sup_right le_rfl
      · subst heq
        obtain ⟨htokens, hpos⟩ := pos_of_bump hts hc hahead hrun
        show (tokenAt _ _).isMark ">" = true
        rw [htokens, hpos]
        exact hnext
  exact fun f outer c x c' hn hbuilt hc h hrun => hall c h f outer c x c' hn hbuilt hc rfl hrun

include hr in
/-- The operators of a level with their right operands. -/
theorem makes_binarySuffixes {l : Nat} {level : BinaryLevel} (hl : binaryLevels[l]? = some level)
    {right : Parser Shape}
    (hright : ∀ {n}, Makes ts n anywhere [] right (IsOperand ts (l + 3)))
    {s : Shape} (hs : IsOperand ts (l + 2) s) (hconforms : Conforms ts s) :
    Makes ts n P [s] (grow (binarySuffix? rules level right n) s) (IsOperand ts (l + 2)) := by
  refine Makes.grow ?_ hs hconforms
  intro c₀ wrap s _ hstep hs hconforms
  have hlevel : level ∈ binaryLevels := List.mem_of_getElem? hl
  have hword : ∀ {n}, Reads ts n Ahead [] bump (anyWord ts) := Reads.bump_any hts fun _ h => h
  -- a test is of the grade of its level, whatever its tokens are
  have htest : ∀ {k : NodeKind} {s : Shape}, level.isRelational = true → IsA k s →
      k ∈ compoundKinds → (∀ words, gradeOf k words = testLevel + 2) →
      IsOperand ts (l + 2) s := by
    rintro k s hrelational hs hk hgrade
    refine ⟨isExpression_of hs hk, ?_⟩
    obtain ⟨id, k', cs, rfl, rfl⟩ := hs
    rw [eq_testLevel hl hrelational]
    exact (hgrade _).ge
  unfold binarySuffix? at hstep
  split at hstep
  next hat =>
    obtain rfl := Option.some.inj hstep
    obtain ⟨hrelational, hat⟩ := (Bool.and_eq_true _ _ ▸ hat :)
    have hbody : ∀ {n}, Reads ts n Ahead [s] (seq [pure [s], bump, one (rules .pattern)])
        (production ts .isPatternExpression) :=
      Reads.seq_shape (eq_testLevel hl hrelational ▸ hs) hconforms <|
        hword.seq_cons hr.pattern.one.single
    exact Yields.mono (Yields.at (Makes.node_ahead (.since _ _) hbody) (ahead_of_atWord hat))
      (fun _ h => h) fun _ hs => htest hrelational hs (by decide) fun _ => rfl
  next =>
  split at hstep
  next hat =>
    obtain rfl := Option.some.inj hstep
    obtain ⟨hrelational, hat⟩ := (Bool.and_eq_true _ _ ▸ hat :)
    have hbody : ∀ {n}, Reads ts n Ahead [s] (seq [pure [s], bump, one (rules (.type false))])
        (production ts .asExpression) :=
      Reads.seq_shape (eq_testLevel hl hrelational ▸ hs) hconforms <|
        hword.seq_cons (hr.type false).one.single
    exact Yields.mono (Yields.at (Makes.node_ahead (.since _ _) hbody) (ahead_of_atWord hat))
      (fun _ h => h) fun _ hs => htest hrelational hs (by decide) fun _ => rfl
  next =>
    obtain ⟨count, hcount, rfl⟩ := Option.map_eq_some_iff.mp hstep
    have hbody : ∀ {n}, Reads ts n (fun c => level.operator? c = some count) [s]
        (seq [pure [s], bump, whenAt (fun _ => count == 2) bump, one right])
        [operand ts (l + 2), operatorOf ts level, operand ts (l + 3)].prod :=
      Reads.seq_shape hs hconforms (reads_operation hts hlevel hright.one)
    have hnode := Makes.node_of (k := .binaryExpression) (.since n [s]) (fun _ _ h => h) hbody
      fun x hx => .inr ⟨l, level, hl, hx⟩
    refine Yields.mono (Yields.at hnode hcount) (fun _ h => h) ?_
    rintro s ⟨id, cs, hcs, rfl⟩
    exact ⟨isExpression_of ⟨id, _, cs, rfl, rfl⟩ (by decide), (gradeOf_leveled hl hcs).ge⟩

include hr in
/-- Operands of some levels from one on with their operators. -/
theorem makes_binary {levels : List BinaryLevel} (hlevels : levels <:+ binaryLevels) :
    Makes ts n P [] (binary rules levels) (IsOperand ts (topGrade - levels.length)) := by
  have hall : ∀ {n}, Makes ts n anywhere [] (binary rules levels)
      (IsOperand ts (topGrade - levels.length)) := by
    induction levels with
    | nil =>
      rw [binary]
      exact makes_unary hts hr
    | cons level tighter ih =>
      rw [binary]
      obtain ⟨looser, hlooser⟩ := hlevels
      have hl : binaryLevels[looser.length]? = some level := by
        rw [← hlooser, List.getElem?_append_right (Nat.le_refl _), Nat.sub_self]
        rfl
      -- so many levels are looser, and all others are left
      have hcount : topGrade - (tighter.length + 1) = looser.length + 2 ∧
          topGrade - tighter.length = looser.length + 3 := by
        have hlength := congrArg List.length hlooser
        simp only [List.length_append, List.length_cons] at hlength
        unfold topGrade
        omega
      have hright : ∀ {n}, Makes ts n anywhere [] (binary rules tighter)
          (IsOperand ts (looser.length + 3)) :=
        hcount.2 ▸ ih ((List.suffix_cons level tighter).trans ⟨looser, hlooser⟩)
      rw [List.length_cons, hcount.1]
      intro n
      refine Yields.checkpoint (Yields.bind hright fun s hs hall => ?_)
      exact makes_binarySuffixes hts hr hl hright (hs.mono (by omega))
        (hall s (List.mem_singleton_self s))
  exact hall.here

include hr in
theorem makes_coalesce : Makes ts n P [] (coalesce rules) (IsOperand ts 1) := by
  refine Yields.checkpoint <| Yields.bind (makes_binary hts hr List.suffix_rfl) fun e he hall =>
    Yields.get fun c₀ _ _ => ?_
  have hconforms : Conforms ts e := hall e (List.mem_singleton_self e)
  split
  next hat =>
    have hbody : ∀ {n}, Reads ts n (fun c => c.atMark "??" = true) [e]
        (seq [pure [e], bump, one (rules .coalesce)]) [operand ts 2, mark ts "??", expr ts].prod :=
      Reads.seq_shape he hconforms <|
        (Reads.bump_mark hts fun _ h => h).seq_cons hr.coalesce.one.single
    have hnode := Makes.node_of (k := .binaryExpression) (.since n [e]) (fun _ _ h => h) hbody
      fun x hx => .inl hx
    refine Yields.mono (Yields.at hnode hat) (fun _ h => h) ?_
    rintro s ⟨id, cs, hcs, rfl⟩
    exact ⟨isExpression_of ⟨id, _, cs, rfl, rfl⟩ (by decide), (gradeOf_coalescing hcs).ge⟩
  next =>
    exact Yields.pure (V := fun s => [s]) (by simpa using hconforms) (he.mono (by decide))

include hr in
theorem makes_conditional : Makes ts n P [] (conditional rules) (IsExpression ts) := by
  refine Yields.checkpoint <| Yields.bind (makes_coalesce hts hr) fun e he hall =>
    Yields.get fun c₀ _ _ => ?_
  have hconforms : Conforms ts e := hall e (List.mem_singleton_self e)
  split
  next hat =>
    refine Yields.at (P := Ahead) (makes_expression_of (k := .conditionalExpression)
      (Makes.node_ahead (.since _ _) ?_) (by decide)) (ahead_of_atMark hat)
    exact Reads.seq_shape he hconforms <| (Reads.bump_ahead hts).seq_cons <|
      hr.expression.one.seq_cons <| (Reads.expect hts ":").seq_cons hr.expression.one.single
  next => exact Yields.pure (V := fun s => [s]) (by simpa using hconforms) he.1

/-! ## Patterns

A pattern that begins like a type is a declaration if a name follows, and else a constant or a type.
-/

include hr in
theorem makes_declarationPattern (nullable : Bool) :
    Makes ts n P [] (declarationPattern rules nullable) (IsA .declarationPattern) :=
  Makes.node (.anew _) <|
    (hr.type nullable).one.seq_cons (makes_singleVariableDesignation hts).one.single

include hr in
theorem makes_pattern : Makes ts n P [] (pattern rules) IsPattern := by
  have hpattern : ∀ {n} {P : Cursor → Prop} {k : NodeKind} {p : Parser Shape},
      Makes ts n P [] p (IsA k) → k.isPattern = true → Makes ts n P [] p IsPattern :=
    fun h hk => Yields.mono h (fun _ hc => hc) fun _ hs => isPattern_of hs hk
  have hconstant : ∀ {n}, Makes ts n anywhere []
      (node .constantPattern (one (binary rules tightLevels))) IsPattern := by
    intro n
    refine hpattern (Makes.node (.anew _) ?_) rfl
    exact (makes_binary hts hr ⟨looseLevels, rfl⟩).one.mono operand_le_expr
  refine Yields.choose fun c₀ _ _ => ?_
  dsimp only
  split
  next hat =>
    refine Yields.at (P := Ahead) (hpattern (Makes.node_ahead (.anew _) ?_) rfl)
      (ahead_of_atContextual (Bool.and_eq_true _ _ ▸ hat).1)
    exact (Reads.bump_ahead hts).seq_cons hr.pattern.one.single
  split
  · exact hconstant.here
  split
  · split
    · exact hpattern (makes_declarationPattern hts hr false) rfl
    · exact hpattern (Makes.node (.anew _) (hr.type false).one) rfl
  · exact hconstant.here

/-! ## Lambdas

Lambdas are told by a scan, and their body may be an expression or a block. -/

theorem makes_bareParameter :
    Makes ts n P [] (node .parameter expectIdentifier) (IsA .parameter) := by
  refine Makes.node (.anew _) ((Reads.expectIdentifier hts).mono fun x hx => .inr ?_)
  exact append_mem_prod nil_mem_kstar (append_mem_prod nil_mem_opt (mem_prod_singleton hx))

include hr in
theorem makes_lambdaParameter : Makes ts n P [] (lambdaParameter rules) (IsA .parameter) := by
  have htype : ∀ {n}, Reads ts n anywhere []
      (whenAt (fun c => (Scan.typedName? c.tokens c.pos { marks := [",", ")"] }).isSome)
        (one (rules (.type true)))) (opt plainType) :=
    Reads.whenAt (hr.type true).one
  have hmodes : ∀ {n}, Reads ts n anywhere []
      (manyWhile (fun c => c.atWord "ref" || c.atWord "out" || c.atWord "in") bump)
      ((word ts fun t => t.kind = .keyword)∗) :=
    Reads.manyWhile (Reads.bump hts fun _ h => ⟨keyword_of_atMode h, ahead_of_atMode h⟩)
  have hbody := hmodes.seq_cons (n := 0) (htype.seq_cons (Reads.expectIdentifier hts).single)
  exact Makes.node (.anew _) (hbody.mono fun _ hx => .inr hx)

include hr in
theorem makes_lambdaParameterList :
    Makes ts n P [] (lambdaParameterList rules) (IsA .parameterList) := by
  refine Makes.node (.anew _) ?_
  exact (Reads.expect hts "(").seq_cons <|
    (Reads.commaItems hts ")" (makes_lambdaParameter hts hr).one).seq_cons <|
    (Reads.expect hts ")").single

include hr in
theorem reads_lambdaBody :
    Reads ts n P [] (lambdaBody rules) [mark ts "=>", a .block + expr ts].prod := by
  refine (Reads.expect hts "=>").seq_cons (Reads.single (Yields.choose fun c₀ _ _ => ?_))
  split
  · exact hr.block.one.mono fun _ h => Or.inl h
  · exact hr.expression.one.mono fun _ h => Or.inr h

include hr in
theorem makes_lambda (form : LambdaForm) :
    Makes ts n P [] (lambda rules form) (IsExpression ts) := by
  have hasync : ∀ {n} {P : Cursor → Prop}, (∀ c, P c → c.atContextual "async" = true) →
      Reads ts n P [] bump (anyWord ts) := fun h => Reads.bump_any hts fun c hc =>
    ahead_of_atContextual (h c hc)
  cases form with
  | simple =>
    have hmode : ∀ {n}, Reads ts n anywhere []
        (whenAt (fun c => c.atContextual "async" && !(c.nth 1).isMark "=>") bump)
        (opt (anyWord ts)) :=
      Reads.whenAt (hasync fun c hc => (Bool.and_eq_true _ _ ▸ hc).1)
    have hbody := hmode.seq_cons (n := 0) <|
      (makes_bareParameter hts).one.seq_cons (reads_lambdaBody hts hr).single
    exact Yields.here (makes_expression_of (Makes.node (.anew _) hbody) (by decide))
  | parenthesized =>
    have hmode : ∀ {n}, Reads ts n anywhere [] (whenAt (·.atContextual "async") bump)
        (opt (anyWord ts)) :=
      Reads.whenAt (hasync fun c hc => hc)
    have hbody := hmode.seq_cons (n := 0) <|
      (makes_lambdaParameterList hts hr).one.seq_cons (reads_lambdaBody hts hr).single
    exact Yields.here (makes_expression_of (Makes.node (.anew _) hbody) (by decide))

include hr in
theorem makes_expression : Makes ts n P [] (Grammar.expression rules) (IsValue ts) := by
  have hall : ∀ {n}, Makes ts n P [] (Grammar.expression rules) (IsExpression ts) := by
    refine Yields.get fun c₀ _ _ => ?_
    split
    · exact makes_lambda hts hr _
    refine Yields.checkpoint <| Yields.bind (makes_conditional hts hr) fun target htarget hall => ?_
    have hconforms : Conforms ts target := hall target (List.mem_singleton_self target)
    refine Yields.get fun c₁ _ _ => ?_
    split
    next count hoperator =>
      have hahead : Ahead c₁ := by
        unfold assignmentOperator? at hoperator
        split at hoperator
        next hany =>
          obtain ⟨m, -, hm⟩ := List.any_eq_true.mp hany
          exact ahead_of_atMark hm
        next =>
          split at hoperator
          next hat => exact ahead_of_atMark (Bool.and_eq_true _ _ ▸ hat).1
          next => cases hoperator
      refine Yields.at (P := Ahead) (makes_expression_of (k := .assignmentExpression)
        (Makes.node_ahead (.since _ _) ?_) (by decide)) hahead
      exact Reads.seq_shape htarget hconforms <| (Reads.bump_ahead hts).seq_cons <|
        (reads_secondToken hts count).seq_cons hr.expression.one.single
    next => exact Yields.pure (V := fun s => [s]) (by simpa using hconforms) htarget
  intro f outer c s c' hn hbuilt hc hpc hrun
  obtain ⟨hbuilt', hc', hadds, hs, hconforms⟩ := hall f outer c s c' hn hbuilt hc hpc hrun
  exact ⟨hbuilt', hc', hadds, ⟨hs, values_expression hts hc hrun⟩, hconforms⟩

end Expressions

end CodeMend.Grammar
