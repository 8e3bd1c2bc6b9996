import CodeMend.Proofs.Grammar.Reads

/-!
# CodeMend — types keep to the grammar of trees

The rules for names and types make nodes in which nothing is evaluated.

* **`Sound`** — the contract of all rules: each one makes a node of the sort that its nonterminal
  stands for.
* **`makes_type`** — types keep it, over rules that do.
-/

namespace CodeMend.Grammar

open CodeMend.Parser Production
open scoped Computability

/-! ## The contract of the rules

Rules ask for each other, so they are all given a contract at once: what each may be asked for and
what sort of node it makes. -/

/-- What stands in front of a rule: the operand that operators apply to. -/
def front : Nonterminal → List Shape
  | .operators _ operand => [operand]
  | _ => []

/-- What a rule may be asked for when so many children of the open node stand in front: operators
apply to what was built since then. -/
def Takes (ts : Array Token) (n : Checkpoint) : Nonterminal → Prop
  | .operators cp operand => cp = n ∧ IsExpression ts operand ∧ Conforms ts operand
  | _ => True

/-- The sort of node that a rule makes. -/
def Accepts (ts : Array Token) : Nonterminal → Shape → Prop
  | .type _ => IsPlainType
  | .expression => IsValue ts
  | .coalesce | .unary | .operators _ _ => IsExpression ts
  | .initializer => IsA .initializerExpression
  | .pattern => IsPattern
  | .statement => IsStatement
  | .block => IsA .block
  | .member | .namespaceMember => fun _ => True

/-- Every rule makes a node of its sort. -/
def Sound (ts : Array Token) (rules : Rules) : Prop :=
  ∀ n nt, Takes ts n nt → Makes ts n anywhere (front nt) (rules nt) (Accepts ts nt)

section Rules

variable {ts : Array Token} {rules : Rules} {n : Checkpoint} {P : Cursor → Prop}

theorem Sound.type (h : Sound ts rules) (nullable : Bool) :
    Makes ts n P [] (rules (.type nullable)) IsPlainType :=
  (h n (.type nullable) trivial).here

theorem Sound.value (h : Sound ts rules) : Makes ts n P [] (rules .expression) (IsValue ts) :=
  (h n .expression trivial).here

theorem Sound.expression (h : Sound ts rules) :
    Makes ts n P [] (rules .expression) (IsExpression ts) :=
  Yields.mono h.value (fun _ hc => hc) fun _ hs => hs.1

theorem Sound.unary (h : Sound ts rules) : Makes ts n P [] (rules .unary) (IsExpression ts) :=
  (h n .unary trivial).here

theorem Sound.coalesce (h : Sound ts rules) : Makes ts n P [] (rules .coalesce) (IsExpression ts) :=
  (h n .coalesce trivial).here

theorem Sound.operators (h : Sound ts rules) {operand : Shape}
    (hoperand : IsExpression ts operand) (hconforms : Conforms ts operand) :
    Makes ts n P [operand] (rules (.operators n operand)) (IsExpression ts) :=
  (h n (.operators n operand) ⟨rfl, hoperand, hconforms⟩).here

theorem Sound.initializer (h : Sound ts rules) :
    Makes ts n P [] (rules .initializer) (IsA .initializerExpression) :=
  (h n .initializer trivial).here

theorem Sound.pattern (h : Sound ts rules) : Makes ts n P [] (rules .pattern) IsPattern :=
  (h n .pattern trivial).here

theorem Sound.statement (h : Sound ts rules) : Makes ts n P [] (rules .statement) IsStatement :=
  (h n .statement trivial).here

theorem Sound.block (h : Sound ts rules) : Makes ts n P [] (rules .block) (IsA .block) :=
  (h n .block trivial).here

theorem Sound.member (h : Sound ts rules) : Makes ts n P [] (rules .member) fun _ => True :=
  (h n .member trivial).here

theorem Sound.namespaceMember (h : Sound ts rules) :
    Makes ts n P [] (rules .namespaceMember) fun _ => True :=
  (h n .namespaceMember trivial).here

end Rules

/-! ## Names and types

A type that names things only is kept apart from one with sizes in its brackets, because expressions
are evaluated in the latter. -/

section Types

variable {ts : Array Token} {rules : Rules} {n : Checkpoint} {P : Cursor → Prop}
  {front : List Shape} (hts : Ended ts) (hr : Sound ts rules)

/-- A node of a name or type around names and types. -/
theorem makes_plain {since : Option Checkpoint} {k : NodeKind} {body : Parser (List Shape)}
    {l : Language Shape} (htakes : TakesIn since n front) (hP : Steady P)
    (hbody : Reads ts 0 P front body l) (hl : l ≤ production ts k) (hplain : l ≤ each IsPlain)
    (hk : k ∈ plainKinds) :
    Makes ts n P front (nodeSince since k body) (fun s => IsA k s ∧ IsPlain s) := by
  refine (Makes.node_of htakes hP hbody hl).mono (fun _ h => h) ?_
  rintro s ⟨id, cs, hcs, rfl⟩
  exact ⟨⟨id, k, cs, rfl, rfl⟩, .node id k cs hk (hplain hcs)⟩

/-- A type around names and types. -/
theorem makes_plainType {since : Option Checkpoint} {k : NodeKind} {body : Parser (List Shape)}
    {l : Language Shape} (htakes : TakesIn since n front) (hP : Steady P)
    (hbody : Reads ts 0 P front body l) (hl : l ≤ production ts k) (hplain : l ≤ each IsPlain)
    (hk : k ∈ plainKinds) (htype : k.isType = true) :
    Makes ts n P front (nodeSince since k body) IsPlainType :=
  Yields.mono (makes_plain htakes hP hbody hl hplain hk) (fun _ h => h) fun _ hs =>
    isPlainType_of hs.1 hs.2 htype

theorem plainType_le_each : plainType ≤ each IsPlain := part_le_each fun _ h => h.2

theorem separated_plainType_le_each : separated ts plainType ≤ each IsPlain :=
  separated_le_each .token plainType_le_each

include hts hr

theorem makes_typeArgumentList : Makes ts n P [] (typeArgumentList rules)
    (fun s => IsA .typeArgumentList s ∧ IsPlain s) := by
  have hbody : ∀ {n}, Reads ts n anywhere []
      (seq [expect "<", commaSeparated (one (rules (.type true))), expect ">"])
      (enclosed ts "<" (separated ts plainType) ">") :=
    (Reads.expect hts "<").seq_cons <|
      (Reads.commaSeparated hts (hr.type true).one).seq_cons <|
      (Reads.expect hts ">").single
  exact Yields.here <| makes_plain (.anew _) (fun _ _ h => h) hbody le_rfl
    (enclosed_le_each .token separated_plainType_le_each) (by decide)

/-- A name with type arguments. -/
theorem makes_genericName :
    Makes ts n (fun c => c.atIdentifier = true) []
      (node .genericName (seq [bump, one (typeArgumentList rules)]))
      (fun s => IsA .genericName s ∧ IsPlain s) := by
  have hbump : ∀ {n}, Reads ts n (fun c => c.atIdentifier = true) [] bump
      (word ts fun t => t.isIdentifier = true) :=
    Reads.bump hts fun c hc => ⟨hc, ahead_of_atIdentifier hc⟩
  have hbody : ∀ {n}, Reads ts n (fun c => c.atIdentifier = true) []
      (seq [bump, one (typeArgumentList rules)]) (production ts .genericName) :=
    hbump.seq_cons (makes_typeArgumentList hts hr).one.single
  refine makes_plain (.anew _) (fun _ _ h => h) hbody le_rfl ?_ (by decide)
  exact cons_le_each (word_le_each .token) <| cons_le_each (part_le_each fun _ h => h.2) nil_le_each

omit hr in
/-- A name that is a single token. -/
theorem makes_identifierName (hP : ∀ c, P c → c.atIdentifier = true) :
    Makes ts n P [] (node .identifierName bump) (fun s => IsA .identifierName s ∧ IsPlain s) := by
  have hbump : ∀ {n}, Reads ts n (fun c => c.atIdentifier = true) [] bump
      (word ts fun t => t.isIdentifier = true) :=
    Reads.bump hts fun c hc => ⟨hc, ahead_of_atIdentifier hc⟩
  have hbody : ∀ {n}, Reads ts n (fun c => c.atIdentifier = true) [] bump
      (production ts .identifierName) := hbump
  have hplain : word ts (fun t => t.isIdentifier = true) ≤ each IsPlain := word_le_each .token
  exact Yields.before
    (makes_plain (.anew _) (fun _ _ h => h) hbody le_rfl hplain (by decide)) hP

theorem makes_simpleTypeName : Makes ts n P [] (simpleTypeName rules) IsPlainType := by
  refine Yields.choose fun c₀ _ _ => ?_
  split
  · exact Yields.unexpected _
  next hid =>
  have hat : c₀.atIdentifier = true := by simpa using hid
  split
  · refine Yields.mono (makes_genericName hts hr) (fun _ hc => hc ▸ hat) ?_
    exact fun s h => isPlainType_of h.1 h.2 rfl
  · refine Yields.mono (makes_identifierName hts (P := (· = c₀)) fun _ hc => hc ▸ hat)
      (fun _ hc => hc) ?_
    exact fun s h => isPlainType_of h.1 h.2 rfl

theorem makes_typeName : Makes ts n P [] (typeName rules) IsPlainType := by
  refine Yields.checkpoint ?_
  refine Yields.bind (makes_simpleTypeName hts hr) fun first hfirst hall => ?_
  refine Makes.grow ?_ hfirst (hall first (List.mem_singleton_self first))
  intro c₀ wrap s _ hstep hs hconforms
  split at hstep
  next hat =>
    obtain rfl := Option.some.inj hstep
    have hahead : Ahead c₀ := by
      simp only [Bool.and_eq_true, Bool.or_eq_true] at hat
      exact hat.1.elim ahead_of_atMark ahead_of_atMark
    have hbody : ∀ {n}, Reads ts n Ahead [s] (seq [pure [s], bump, one (simpleTypeName rules)])
        (production ts .qualifiedName) :=
      Reads.seq_shape hs hconforms <|
        (Reads.bump_ahead hts).seq_cons (makes_simpleTypeName hts hr).one.single
    refine Yields.at
      (makes_plainType (.since _ _) (fun _ _ h => h) hbody le_rfl ?_ (by decide) rfl) hahead
    exact cons_le_each plainType_le_each <| cons_le_each (word_le_each .token) <|
      cons_le_each plainType_le_each nil_le_each
  next => cases hstep

theorem makes_tupleTypeElement : Makes ts n P [] (tupleTypeElement rules)
    (fun s => IsA .tupleElement s ∧ IsPlain s) := by
  have hbody : ∀ {n}, Reads ts n anywhere []
      (seq [one (rules (.type true)), whenAt (·.atIdentifier) bump])
      (production ts .tupleElement) :=
    (hr.type true).one.seq_cons <|
      (Reads.whenAt (Reads.bump_any hts fun _ h => ahead_of_atIdentifier h)).single
  refine Yields.here (makes_plain (.anew _) (fun _ _ h => h) hbody le_rfl ?_ (by decide))
  exact cons_le_each plainType_le_each <|
    cons_le_each (opt_le_each (word_le_each .token)) nil_le_each

theorem makes_tupleType : Makes ts n P [] (tupleType rules)
    (fun s => IsA .tupleType s ∧ IsPlain s) := by
  have hbody : ∀ {n}, Reads ts n anywhere []
      (seq [expect "(", commaSeparated (one (tupleTypeElement rules)), expect ")"])
      (production ts .tupleType) :=
    (Reads.expect hts "(").seq_cons <|
      (Reads.commaSeparated hts (makes_tupleTypeElement hts hr).one).seq_cons <|
      (Reads.expect hts ")").single
  refine Yields.here (makes_plain (.anew _) (fun _ _ h => h) hbody le_rfl ?_ (by decide))
  exact enclosed_le_each .token (separated_le_each .token (part_le_each fun _ h => h.2))

omit hr in
/-- Brackets without sizes. -/
theorem makes_emptyRank : Makes ts n (fun c => c.atMark "[" = true) [] emptyRank
    (fun s => IsA .arrayRankSpecifier s ∧ IsPlain s) := by
  have hbody : ∀ {n}, Reads ts n (fun c => c.atMark "[" = true) []
      (seq [bump, manyWhile (·.atMark ",") bump, expect "]"])
      (enclosed ts "[" ((anyWord ts)∗) "]") :=
    (Reads.bump_mark hts fun _ h => h).seq_cons <|
      (Reads.manyWhile (Reads.bump_any hts fun _ h => ahead_of_atMark h)).seq_cons <|
      (Reads.expect hts "]").single
  refine makes_plain (.anew _) (fun _ _ h => h) hbody ?_ ?_ (by decide)
  · exact enclosed_mono (kstar_mono fun _ h => Or.inl h)
  · exact enclosed_le_each .token (kstar_le_each (word_le_each .token))

omit hr in
/-- What is made of a type by a question mark or brackets is a type. -/
theorem makes_typeSuffix (nullable : Bool) {s : Shape} (hs : IsPlainType s)
    (hconforms : Conforms ts s) :
    Makes ts n P [s] (grow (typeSuffix? nullable n) s) IsPlainType := by
  refine Makes.grow ?_ hs hconforms
  intro c₀ wrap s _ hstep hs hconforms
  unfold typeSuffix? at hstep
  split at hstep
  next hat =>
    obtain rfl := Option.some.inj hstep
    have hmark : c₀.atMark "?" = true := (Bool.and_eq_true _ _ ▸ hat).2
    have hbody : ∀ {n}, Reads ts n (fun c => c.atMark "?" = true) [s] (seq [pure [s], bump])
        (production ts .nullableType) :=
      Reads.seq_shape hs hconforms (Reads.bump_mark hts fun _ h => h).single
    refine Yields.at
      (makes_plainType (.since _ _) (fun _ _ h => h) hbody le_rfl ?_ (by decide) rfl) hmark
    exact cons_le_each plainType_le_each <| cons_le_each (word_le_each .token) nil_le_each
  next =>
  split at hstep
  next hat =>
    obtain rfl := Option.some.inj hstep
    -- Empty brackets, one pair or several.
    have hrank : ∀ c, atEmptyRank c = true → c.atMark "[" = true := by
      intro c h
      exact (Bool.and_eq_true _ _ ▸ h).1
    have hbody : ∀ {n}, Reads ts n anywhere [s]
        (seq [pure [s], manyWhile atEmptyRank (one emptyRank)])
        [plainType, (plain .arrayRankSpecifier)∗].prod :=
      Reads.seq_shape hs hconforms
        (Reads.manyWhile (Makes.one (Yields.before (makes_emptyRank hts) hrank))).single
    refine Yields.here (makes_plainType (.since _ _) (fun _ _ h => h) hbody ?_ ?_ (by decide) rfl)
    · simp only [List.prod_cons, production]
      exact mul_le_mul' le_rfl (mul_le_mul' (kstar_mono (part_mono fun _ h => h.1)) le_rfl)
    · exact cons_le_each plainType_le_each <|
        cons_le_each (kstar_le_each (part_le_each fun _ h => h.2)) nil_le_each
  next => cases hstep

/-- **Types are nodes in which nothing is evaluated.** -/
theorem makes_type (nullable : Bool) : Makes ts n P [] (type rules nullable) IsPlainType := by
  refine Yields.checkpoint ?_
  have hgrow : ∀ s, IsPlainType s → (∀ s' ∈ [s], Conforms ts s') →
      Makes ts n anywhere [s] (grow (typeSuffix? nullable n) s) IsPlainType :=
    fun s hs hall => makes_typeSuffix hts nullable hs (hall s (List.mem_singleton_self s))
  refine Yields.get fun c₀ _ _ => ?_
  dsimp only
  split
  · refine Yields.bind (Yields.mono (makes_tupleType hts hr) (fun _ h => h) fun _ h => ?_) hgrow
    exact isPlainType_of h.1 h.2 rfl
  split
  next hpredefined =>
    have hbare : Bare c₀ := by
      simp only [Token.isPredefinedType, Bool.and_eq_true, beq_iff_eq] at hpredefined
      simp [Bare, Ahead, hpredefined.1]
    refine Yields.bind (Yields.at ?_ hbare) hgrow
    exact makes_plainType (k := .predefinedType) (.anew _) (fun _ _ h => h)
      (Reads.bump_bare hts) le_rfl (word_le_each .token) (by decide) rfl
  next => exact Yields.bind (makes_typeName hts hr) hgrow

end Types

end CodeMend.Grammar
