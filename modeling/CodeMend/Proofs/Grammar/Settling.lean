import CodeMend.Proofs.Grammar.Lands

/-!
# CodeMend — expressions declare nothing

Variables are declared where an expression may stand in two ways.  A type and a name are read where
the rule around them has scanned for them; names in parentheses are read as an operand.  The latter
never makes up an expression: an equals sign stands behind them, none of the operators that may
follow takes it for its own, and so the declaration is the target of an assignment.

* **`Values`** — a parser that makes no declaration.
* **`Settled`** — a declaration with an equals sign behind it, or something else.
* **`lands_deconstructionDeclaration`** — names in parentheses are read up to the equals sign that
  the scan for them saw.
* **`settled_primary`** … **`settled_conditional`** — the rules that an expression begins with.
* **`values_expression`** — an expression is no declaration.
-/

namespace CodeMend.Grammar

open CodeMend.Parser Production
open Scan (markAt)

/-! ## Parsers that make no declaration

Most parsers make a value whatever they read.  The exceptions all begin with the same two tokens. -/

section Values

/-- What the parser makes is not the declaration of variables. -/
def Values (p : Parser Shape) : Prop :=
  ∀ ⦃c s c'⦄, p c = .ok (s, c') → ¬IsA .declarationExpression s

variable {α : Type} {p : Parser Shape} {k : NodeKind}

theorem Values.node {since : Option Checkpoint} {body : Parser (List Shape)}
    (hk : k ≠ .declarationExpression) : Values (nodeSince since k body) := by
  intro c s c' hrun hs
  obtain ⟨cs, _, _, rfl, -⟩ := exists_of_nodeSince hrun
  exact hk (eq_of_isA ⟨_, k, cs, rfl, rfl⟩ hs)

theorem Values.bind {p : Parser α} {f : α → Parser Shape} (h : ∀ x, Values (f x)) :
    Values (p >>= f) := by
  intro c s c' hrun
  obtain ⟨x, c₁, -, hrun⟩ := bind_eq_ok hrun
  exact h x hrun

theorem Values.unexpected (expected : String) : Values (Parser.unexpected expected) := by
  rintro c s c' ⟨⟩

theorem Values.choose {f : Cursor → Parser Shape} (h : ∀ c, Values (f c)) :
    Values (Parser.choose f) :=
  Values.bind h

variable {rules : Rules}

theorem values_single (hk : k ≠ .declarationExpression) : Values (single k) := .node hk

theorem values_simpleName : Values (simpleName rules) := by
  refine .choose fun c => ?_
  split
  · exact .unexpected _
  split
  · exact .node (by decide)
  · exact values_single (by decide)

theorem values_creation : Values (creation rules) := by
  refine .bind fun cp => .bind fun new => .bind fun c => ?_
  split
  · exact .bind fun parts => .node (by decide)
  split
  · exact .bind fun parts => .node (by decide)
  refine .bind fun typeCp => .bind fun element => .bind fun c => ?_
  split
  · exact .bind fun array => .bind fun init => .node (by decide)
  split
  · exact .bind fun init => .node (by decide)
  · exact .bind fun parts => .node (by decide)

theorem values_parenthesizedOrTuple : Values (parenthesizedOrTuple rules) := by
  refine .bind fun cp => .bind fun opening => .bind fun firstCp => .bind fun first =>
    .bind fun c => ?_
  split
  · exact .bind fun first => .bind fun more => .bind fun close => .node (by decide)
  · exact .bind fun close => .node (by decide)

theorem values_lambda (form : LambdaForm) : Values (lambda rules form) := by
  cases form with
  | simple => exact .node (by decide)
  | parenthesized => exact .node (by decide)

end Values

/-! ## Names in parentheses

The scan for such a declaration has seen all of it, so the rule reads up to the equals sign. -/

section Names

variable {ts : Array Token} (hts : Ended ts) {i : Nat}

include hts

/-- Behind the first of some names, the others are read up to the parenthesis that closes them. -/
theorem exists_lands_names {fuel rounds : Nat} (h : namesThenAssignment ts fuel i = true)
    (hrounds : ts.size ≤ i + rounds) :
    (tokenAt ts i).isIdentifier = true ∧ ∃ j,
      Lands ts (manyWhileFuel (·.atMark ",") (seq [bump, one singleVariableDesignation]) rounds)
        (i + 1) j ∧
      markAt ts j ")" = true ∧ markAt ts (j + 1) "=" = true := by
  induction fuel generalizing i rounds with
  | zero => cases h
  | succ fuel ih =>
    rw [namesThenAssignment, Bool.and_eq_true] at h
    obtain ⟨hid, h⟩ := h
    have hi := Scan.lt_of_isIdentifier hts hid
    obtain ⟨rounds, rfl⟩ : ∃ n, rounds = n + 1 := ⟨rounds - 1, by omega⟩
    refine ⟨hid, ?_⟩
    split at h
    next hcomma =>
      obtain ⟨hnext, j, hj, hclose⟩ := ih h (show ts.size ≤ i + 2 + rounds by omega)
      refine ⟨j, .round (fun _ => hcomma) (.seq_cons (.bump (Scan.lt_of_isMark hts hcomma))
        (.single (lands_singleVariableDesignation hts hnext).one)) hj, hclose⟩
    next hcomma =>
      obtain ⟨hclose, hassign⟩ := (Bool.and_eq_true _ _ ▸ h :)
      exact ⟨i + 1, .stop fun _ => Bool.eq_false_iff.mpr hcomma, hclose, hassign⟩

/-- A declaration of several variables is read up to the equals sign behind it. -/
theorem lands_deconstructionDeclaration {b : TreeBuilder}
    (h : atDeconstruction ⟨ts, i, b⟩ = true) :
    ∃ j, Lands ts deconstructionDeclaration i j ∧ markAt ts j "=" = true := by
  rw [atDeconstruction, Bool.and_eq_true, Bool.and_eq_true] at h
  obtain ⟨⟨hvar, hopen⟩, hnames⟩ := h
  have hi : i + 1 < ts.size :=
    Scan.lt_of_kind_ne hts (by simp [kind_of_isContextual (t := tokenAt ts i) hvar])
  obtain ⟨hid, j, hj, hclose, hassign⟩ :=
    exists_lands_names hts hnames (show ts.size ≤ i + 2 + (ts.size + 1) by omega)
  refine ⟨j + 1, .node _ (.seq_cons (Lands.node _ (.bump hi)).one
    (.single (Lands.node _ ?_).one)), hassign⟩
  have hlist : Lands ts (commaSeparated (one singleVariableDesignation)) (i + 2) j :=
    .seq_cons (lands_singleVariableDesignation hts hid).one (.single (.manyWhile hj))
  exact .seq_cons (.expect hts hopen) (.seq_cons hlist (.single (.expect hts hclose)))

end Names

/-! ## Declarations in front of an equals sign

An expression that begins as a declaration is followed by an equals sign, and then the rule for
expressions goes on to make an assignment of it. -/

/-- If the shape declares variables, an equals sign stands ahead. -/
def Settled (s : Shape) (c : Cursor) : Prop := IsA .declarationExpression s → c.atMark "=" = true

section Settled

variable {ts : Array Token} {rules : Rules} {c c' : Cursor} {s operand : Shape}

theorem Values.settled {p : Parser Shape} (h : Values p) (hrun : p c = .ok (s, c')) :
    Settled s c' :=
  fun hs => absurd hs (h hrun)

/-- Whatever wraps an operand makes no declaration of it. -/
theorem settled_grow {step? : Cursor → Option (Shape → Parser Shape)}
    (hwrap : ∀ c wrap s, step? c = some wrap → Values (wrap s)) (hs : Settled operand c)
    (hrun : grow step? operand c = .ok (s, c')) : Settled s c' := by
  have hfuel : ∀ fuel (operand : Shape) (c : Cursor), Settled operand c →
      growFuel step? fuel operand c = .ok (s, c') → Settled s c' := by
    intro fuel
    induction fuel with
    | zero => rintro operand c - ⟨⟩
    | succ fuel ih =>
      intro operand c hs hrun
      obtain ⟨c₀, c₁, hget, hrun⟩ := bind_eq_ok hrun
      cases hget
      cases hstep : step? c with
      | some wrap =>
        simp only [hstep] at hrun
        obtain ⟨wrapped, c₁, hwrapped, hrun⟩ := bind_eq_ok hrun
        exact ih wrapped c₁ ((hwrap c wrap operand hstep).settled hwrapped) hrun
      | none =>
        simp only [hstep] at hrun
        cases hrun
        exact hs
  obtain ⟨c₀, c₁, hget, hrun⟩ := bind_eq_ok hrun
  cases hget
  exact hfuel _ operand c hs hrun

theorem settled_primary (hts : Ended ts) (hc : Inside ts c)
    (hrun : primary rules c = .ok (s, c')) : Settled s c' := by
  obtain ⟨c₀, c₁, hget, hrun⟩ := bind_eq_ok hrun
  cases hget
  have hliteral : Values (single .literalExpression) := values_single (by decide)
  cases hkind : c.current.kind <;> simp only [hkind] at hrun
  case integerLiteral | realLiteral | stringLiteral | characterLiteral =>
    exact hliteral.settled hrun
  case identifier =>
    split at hrun
    next hat =>
      -- the only declaration that an operand can be
      intro _
      obtain ⟨tokens, i, b⟩ := c
      obtain rfl : tokens = ts := hc.tokens_eq
      obtain ⟨j, hj, hassign⟩ := lands_deconstructionDeclaration hts hat
      obtain ⟨htokens, rfl⟩ := hj.pos_eq hrun
      rw [Cursor.atMark, Cursor.current, htokens]
      exact hassign
    next => exact values_simpleName.settled hrun
  case keyword =>
    refine Values.settled ?_ hrun
    repeat' split
    all_goals first
      | exact .node (by decide)
      | exact values_creation
      | exact .unexpected _
  case punctuation =>
    split at hrun
    · exact values_parenthesizedOrTuple.settled hrun
    · exact (Values.unexpected _).settled hrun
  case endOfFile => exact (Values.unexpected _).settled hrun

theorem settled_operators {cp : Checkpoint} (hs : Settled operand c)
    (hrun : operators rules cp operand c = .ok (s, c')) : Settled s c' := by
  obtain ⟨e, c₁, hgrow, hrun⟩ := bind_eq_ok hrun
  obtain ⟨c₀, c₂, hget, hrun⟩ := bind_eq_ok hrun
  cases hget
  have he : Settled e c₁ := by
    refine settled_grow (fun c wrap s hstep => ?_) hs hgrow
    unfold operandSuffix? at hstep
    repeat' split at hstep
    all_goals first
      | exact Option.some.inj hstep ▸ .node (by decide)
      | cases hstep
  split at hrun
  · exact (Values.node (by decide)).settled hrun
  split at hrun
  · exact (Values.node (by decide)).settled hrun
  · cases hrun
    exact he

theorem settled_unary (hts : Ended ts) (hc : Inside ts c)
    (hrun : unary rules c = .ok (s, c')) : Settled s c' := by
  obtain ⟨c₀, c₁, hget, hrun⟩ := bind_eq_ok hrun
  cases hget
  dsimp only at hrun
  split at hrun
  · exact (Values.node (by decide)).settled hrun
  split at hrun
  · exact (Values.node (by decide)).settled hrun
  split at hrun
  · exact (Values.node (by decide)).settled hrun
  split at hrun
  · exact (Values.node (by decide)).settled hrun
  · obtain ⟨cp, c₁, hcp, hrun⟩ := bind_eq_ok hrun
    cases hcp
    obtain ⟨operand, c₁, hprimary, hrun⟩ := bind_eq_ok hrun
    exact settled_operators (settled_primary hts hc hprimary) hrun

theorem settled_binary (hts : Ended ts) (levels : List BinaryLevel) (hc : Inside ts c)
    (hrun : binary rules levels c = .ok (s, c')) : Settled s c' := by
  induction levels generalizing s c' with
  | nil => exact settled_unary hts hc hrun
  | cons level tighter ih =>
    obtain ⟨cp, c₁, hcp, hrun⟩ := bind_eq_ok hrun
    cases hcp
    obtain ⟨first, c₁, hfirst, hrun⟩ := bind_eq_ok hrun
    refine settled_grow (fun c wrap s hstep => ?_) (ih hfirst) hrun
    unfold binarySuffix? at hstep
    split at hstep
    · exact Option.some.inj hstep ▸ .node (by decide)
    split at hstep
    · exact Option.some.inj hstep ▸ .node (by decide)
    · obtain ⟨length, -, rfl⟩ := Option.map_eq_some_iff.mp hstep
      exact .node (by decide)

theorem settled_coalesce (hts : Ended ts) (hc : Inside ts c)
    (hrun : coalesce rules c = .ok (s, c')) : Settled s c' := by
  obtain ⟨cp, c₁, hcp, hrun⟩ := bind_eq_ok hrun
  cases hcp
  obtain ⟨e, c₁, he, hrun⟩ := bind_eq_ok hrun
  obtain ⟨c₀, c₂, hget, hrun⟩ := bind_eq_ok hrun
  cases hget
  split at hrun
  · exact (Values.node (by decide)).settled hrun
  · cases hrun
    exact settled_binary hts _ hc he

theorem settled_conditional (hts : Ended ts) (hc : Inside ts c)
    (hrun : conditional rules c = .ok (s, c')) : Settled s c' := by
  obtain ⟨cp, c₁, hcp, hrun⟩ := bind_eq_ok hrun
  cases hcp
  obtain ⟨e, c₁, he, hrun⟩ := bind_eq_ok hrun
  obtain ⟨c₀, c₂, hget, hrun⟩ := bind_eq_ok hrun
  cases hget
  split at hrun
  · exact (Values.node (by decide)).settled hrun
  · cases hrun
    exact settled_coalesce hts hc he

/-- **An expression is not the declaration of variables.** -/
theorem values_expression (hts : Ended ts) (hc : Inside ts c)
    (hrun : Grammar.expression rules c = .ok (s, c')) : ¬IsA .declarationExpression s := by
  obtain ⟨c₀, c₁, hget, hrun⟩ := bind_eq_ok hrun
  cases hget
  cases hform : lambdaAt? c with
  | some form =>
    simp only [hform] at hrun
    exact values_lambda form hrun
  | none =>
    simp only [hform] at hrun
    obtain ⟨cp, c₁, hcp, hrun⟩ := bind_eq_ok hrun
    cases hcp
    obtain ⟨target, c₁, htarget, hrun⟩ := bind_eq_ok hrun
    obtain ⟨c₀, c₂, hget, hrun⟩ := bind_eq_ok hrun
    cases hget
    cases hassign : assignmentOperator? c₁ with
    | some length =>
      simp only [hassign] at hrun
      exact Values.node (by decide) hrun
    | none =>
      simp only [hassign] at hrun
      cases hrun
      intro hs
      -- A declaration has an equals sign behind it, but no operator was found there.
      have hmark : assignmentMarks.any c'.atMark = true :=
        List.any_eq_true.mpr ⟨"=", by decide, settled_conditional hts hc htarget hs⟩
      rw [assignmentOperator?, if_pos hmark] at hassign
      cases hassign

end Settled

end CodeMend.Grammar
