import CodeMend.Check.Conversion
import CodeMend.Proofs.Binding.Promotion
import CodeMend.Proofs.Lists

/-!
# CodeMend — the binder's types of arithmetic

The binder against the types of the language.  A document tells it less than a compiler knows: it
has no values of constants, it types a literal by its suffix and a shift by both of its operands.
Expressions where none of this matters are regular, and a type that the binder knows of a regular
expression is the type of the language.

* **`Expr.isRegular`** — the expressions.
* **`Expr.Spells`** — how a node spells an expression, one case for each form.
* **`Binder.told_of_spells`** — the search for the type of an expression ends, and its result agrees
  with the language.
* **`Binder.known_types_of_arithmetic`** — the types of regular expressions, and what a redundant
  conversion converts.
-/

namespace CodeMend

open Binder

namespace Expr

section

variable (constant? : Expr → Option Int)

/-- The first type that the suffix of an integer literal admits. -/
def firstType? : Expr → Option Primitive
  | literal token => some (IntegerLiteral.ofText token.text.toList).first
  | _ => none

/-- Operands whose types promotion tells. -/
def areOrdinary (operator : String) (left right : Expr) : Bool :=
  match left.type? constant?, right.type? constant? with
  | some (.primitive p), some (.primitive q) =>
    Operand.isOrdinary operator (operand constant? left p) (operand constant? right q)
  | _, _ => true

/-- The values of constants do not matter for the type, and neither do shifts and negations of
unsigned integers. -/
def isRegular : Expr → Bool
  | literal token =>
    token.kind != .integerLiteral ||
      (IntegerLiteral.ofText token.text.toList).type? ==
        some (IntegerLiteral.ofText token.text.toList).first
  | named _ _ => true
  | parenthesized e => e.isRegular
  | unary operator e =>
    match e.leastType? operator with
    | some p => e.firstType? == some p
    | none =>
      operator == "!" ||
        (e.isRegular && !(operator == "-" && e.type? constant? == some (.primitive .uint)))
  | step _ e => e.isRegular
  | binary operator left right =>
    comparisons.contains operator ||
      (left.isRegular && right.isRegular && areOrdinary constant? operator left right)
  | cast _ _ => true
  | conditional _ whenTrue whenFalse => whenTrue.isRegular && whenFalse.isRegular

end

/-! ## Spelling

Reading is bounded by fuel.  As a relation, that a node spells an expression has a case for each
form, and the proofs go by induction over these. -/

/-- A node spells an expression. -/
inductive Spells (t : Tree) : NodeId → Expr → Prop
  | literal {n : NodeId} (hkind : t.kind n = .literalExpression) :
    Spells t n (.literal (t.token (t.firstToken n)))
  | named {n : NodeId} {p : Primitive} (hkind : t.kind n = .identifierName)
    (hdeclared : declaredPrimitive? t n = some p) : Spells t n (.named n p)
  | parenthesized {n c : NodeId} {e : Expr} (hkind : t.kind n = .parenthesizedExpression)
    (hchildren : t.childNodes n = [c]) (he : Spells t c e) : Spells t n (.parenthesized e)
  | unary {n c : NodeId} {e : Expr} (hkind : t.kind n = .prefixUnaryExpression)
    (hchildren : t.childNodes n = [c])
    (hoperator : (t.token (t.firstToken n)).text ∉ steps) (he : Spells t c e) :
    Spells t n (.unary (t.token (t.firstToken n)).text e)
  | stepBefore {n c : NodeId} {e : Expr} (hkind : t.kind n = .prefixUnaryExpression)
    (hchildren : t.childNodes n = [c])
    (hoperator : (t.token (t.firstToken n)).text ∈ steps) (he : Spells t c e) :
    Spells t n (.step (t.token (t.firstToken n)).text e)
  | stepBehind {n c : NodeId} {e : Expr} (hkind : t.kind n = .postfixUnaryExpression)
    (hchildren : t.childNodes n = [c])
    (hoperator : (t.token (t.lastToken n)).text ∈ steps) (he : Spells t c e) :
    Spells t n (.step (t.token (t.lastToken n)).text e)
  | binary {n left right : NodeId} {l r : Expr} (hkind : t.kind n = .binaryExpression)
    (hchildren : t.childNodes n = [left, right]) (hl : Spells t left l) (hr : Spells t right r) :
    Spells t n (.binary (String.join ((t.childTokens n).map fun i => (t.token i).text)) l r)
  | cast {n type c : NodeId} {p : Primitive} {e : Expr} (hkind : t.kind n = .castExpression)
    (hchildren : t.childNodes n = [type, c]) (htype : writtenPrimitive? t type = some p)
    (he : Spells t c e) : Spells t n (.cast p e)
  | conditional {n condition whenTrue whenFalse : NodeId} {c a b : Expr}
    (hkind : t.kind n = .conditionalExpression)
    (hchildren : t.childNodes n = [condition, whenTrue, whenFalse]) (hc : Spells t condition c)
    (ha : Spells t whenTrue a) (hb : Spells t whenFalse b) : Spells t n (.conditional c a b)

theorem spells_of_readFuel {t : Tree} {fuel : Nat} {n : NodeId} {e : Expr}
    (h : readFuel t fuel n = some e) : Spells t n e := by
  induction fuel generalizing n e with
  | zero => cases h
  | succ fuel ih =>
    unfold readFuel at h
    split at h
    case h_1 hkind =>
      cases h
      exact .literal hkind
    case h_2 hkind =>
      obtain ⟨p, hp, rfl⟩ := Option.map_eq_some_iff.mp h
      exact .named hkind hp
    case h_3 c hkind hchildren =>
      obtain ⟨e, he, rfl⟩ := Option.map_eq_some_iff.mp h
      exact .parenthesized hkind hchildren (ih he)
    case h_4 c hkind hchildren =>
      obtain ⟨e, he, rfl⟩ := Option.map_eq_some_iff.mp h
      split
      case isTrue hoperator =>
        exact .stepBefore hkind hchildren (List.contains_iff_mem.mp hoperator) (ih he)
      case isFalse hoperator =>
        exact .unary hkind hchildren (mt List.contains_iff_mem.mpr hoperator) (ih he)
    case h_5 c hkind hchildren =>
      dsimp only at h
      split at h
      case isTrue hoperator =>
        obtain ⟨e, he, rfl⟩ := Option.map_eq_some_iff.mp h
        exact .stepBehind hkind hchildren (List.contains_iff_mem.mp hoperator) (ih he)
      case isFalse => cases h
    case h_6 left right hkind hchildren =>
      simp only [Option.bind_eq_bind, Option.bind_eq_some_iff, Option.pure_def,
        Option.some.injEq] at h
      obtain ⟨l, hl, r, hr, rfl⟩ := h
      exact .binary hkind hchildren (ih hl) (ih hr)
    case h_7 type c hkind hchildren =>
      simp only [Option.bind_eq_bind, Option.bind_eq_some_iff, Option.pure_def,
        Option.some.injEq] at h
      obtain ⟨p, hp, e, he, rfl⟩ := h
      exact .cast hkind hchildren hp (ih he)
    case h_8 condition whenTrue whenFalse hkind hchildren =>
      simp only [Option.bind_eq_bind, Option.bind_eq_some_iff, Option.pure_def,
        Option.some.injEq] at h
      obtain ⟨c, hc, a, ha, b, hb, rfl⟩ := h
      exact .conditional hkind hchildren (ih hc) (ih ha) (ih hb)
    case h_9 => cases h

end Expr

/-! ## One expression over its parts

What the binder says of a node is compared with what the language says of the expression, given that
they agree on the operands.  Only known types have to agree: the binder may always say that it does
not know. -/

namespace Binder

section

variable {constant? : Expr → Option Int} {operator : String} {type left right : StaticType}
  {e l r c : Expr} {T : StaticType} {p q : Primitive}

/-- A type is that of a regular expression if it is known. -/
def Agrees (constant? : Expr → Option Int) (type : StaticType) (e : Expr) : Prop :=
  e.isRegular constant? = true → ∀ T, e.type? constant? = some T → type.isKnown = true → type = T

theorem agrees_literal (token : Token) : Agrees constant? (literalType token) (.literal token) := by
  intro hregular T htype _
  rw [Expr.type?] at htype
  by_cases hkind : token.kind = .integerLiteral
  · have hfirst : (IntegerLiteral.ofText token.text.toList).type? =
        some (IntegerLiteral.ofText token.text.toList).first := by
      simpa [Expr.isRegular, hkind] using hregular
    rw [literalType?, hkind] at htype
    simp only [hfirst, Option.map_some, Option.some.injEq] at htype
    rw [literalType_integer hkind, htype]
  · exact literalType_other hkind htype

theorem known_of_unaryType (h : operator ≠ "!")
    (hknown : (unaryType operator type).isKnown = true) : type.isKnown = true := by
  cases type with
  | unknown => simp [unaryType, h, StaticType.isKnown] at hknown
  | array _ | nullable _ | tuple _ => simpa [unaryType, h] using hknown
  | _ => rfl

/-- The literal whose value is the least of a type with a minus in front. -/
theorem literal_of_leastType? (h : e.leastType? operator = some p) :
    operator = "-" ∧ (p = .int ∨ p = .long) ∧
      ∃ token, e = .literal token ∧ token.kind = .integerLiteral := by
  cases e with
  | literal token =>
    rw [Expr.leastType?] at h
    split at h
    case isTrue hliteral =>
      refine ⟨hliteral.1, ?_, token, rfl, hliteral.2⟩
      unfold IntegerLiteral.leastType? at h
      grind
    case isFalse => cases h
  | _ => cases h

theorem agrees_unary (hstep : operator ∉ steps) (he : Agrees constant? type e)
    (hliteral : ∀ token, e = .literal token → type.isKnown = true → type = literalType token) :
    Agrees constant? (unaryType operator type) (.unary operator e) := by
  intro hregular T htype hknown
  rw [Expr.type?] at htype
  rw [Expr.isRegular] at hregular
  cases hleast : e.leastType? operator with
  | some p =>
    simp only [hleast, Option.some.injEq] at htype hregular
    obtain ⟨rfl, hp, token, rfl, hkind⟩ := literal_of_leastType? hleast
    have hfirst : (IntegerLiteral.ofText token.text.toList).first = p := by
      simpa [Expr.firstType?] using hregular
    rw [hliteral token rfl (known_of_unaryType (by decide) hknown), literalType_integer hkind,
      hfirst, ← htype]
    obtain rfl | rfl := hp <;> rfl
  | none =>
    simp only [hleast] at htype hregular
    split at htype
    case h_2 => cases htype
    case h_1 p hp =>
      obtain ⟨r, hr, rfl⟩ := Option.map_eq_some_iff.mp htype
      by_cases hnot : operator = "!"
      · subst hnot
        have hresult : ∀ s ∈ unarySignatures "!", s.result = .bool := by decide
        rw [Signature.result_of_resolve hresult hr]
        rfl
      · simp only [beq_iff_eq, hnot, Bool.or_eq_true, Bool.and_eq_true, false_or,
          Bool.not_eq_true', Bool.and_eq_false_iff, hp] at hregular
        rw [he hregular.1 _ hp (known_of_unaryType hnot hknown)]
        refine unaryType_of_resolve hstep (fun hminus huint => ?_) hr
        have hp' : p = .uint := huint
        simp [hminus, hp'] at hregular

theorem unaryType_step (hstep : operator ∈ steps) : unaryType operator type = type := by
  simp only [steps, List.mem_cons, List.not_mem_nil, or_false] at hstep
  obtain rfl | rfl := hstep <;> simp [unaryType]

theorem agrees_step (hstep : operator ∈ steps) (he : Agrees constant? type e) :
    Agrees constant? type (.step operator e) := by
  intro hregular T htype hknown
  rw [Expr.type?] at htype
  split at htype
  case h_2 => cases htype
  case h_1 p hp =>
    obtain ⟨r, hr, rfl⟩ := Option.map_eq_some_iff.mp htype
    rw [type_of_step hstep hr]
    exact he hregular _ hp hknown

/-! ### Two operands

The operators of two operands fall into three families by how their result is typed.  Null stands
apart, since no predefined operator takes it. -/

theorem operationType_arithmetic (h : operator ∈ ["*", "/", "%", "-"]) :
    operationType operator left right = left.promote right := by
  simp only [List.mem_cons, List.not_mem_nil, or_false] at h
  obtain rfl | rfl | rfl | rfl := h <;> simp [operationType]

theorem operationType_plus :
    operationType "+" left right =
      if left = .primitive .string ∨ right = .primitive .string then .primitive .string
      else left.promote right := by
  simp [operationType]

theorem operationType_shift (h : operator ∈ ["<<", ">>"]) :
    operationType operator left right =
      match left with
      | .primitive p => if p.isNumeric then left.promote (.primitive .int) else .unknown
      | _ => .unknown := by
  simp only [List.mem_cons, List.not_mem_nil, or_false] at h
  obtain rfl | rfl := h <;> rfl

theorem operationType_bitwise (h : operator ∈ ["&", "|", "^"]) :
    operationType operator left right =
      if left = .primitive .bool ∧ right = .primitive .bool then .primitive .bool
      else left.promote right := by
  simp only [List.mem_cons, List.not_mem_nil, or_false] at h
  obtain rfl | rfl | rfl := h <;> simp [operationType]

theorem promoted_cases : ∀ operator ∈ promoted,
    operator ∈ ["*", "/", "%", "-"] ∨ operator = "+" ∨ operator ∈ ["<<", ">>"] ∨
      operator ∈ ["&", "|", "^"] := by
  decide

theorem primitives_of_promote (h : (left.promote right).isKnown = true) :
    ∃ p q, left = .primitive p ∧ right = .primitive q := by
  unfold StaticType.promote at h
  split at h
  case h_1 p q => exact ⟨p, q, rfl, rfl⟩
  case h_2 => cases h

/-- The type of an operation, if it is known, depends on known operands only. -/
theorem operationType_congr {left' right' : StaticType} (hpromoted : operator ∈ promoted)
    (hl : left.isKnown = true → left = left') (hr : right.isKnown = true → right = right')
    (hknown : (operationType operator left right).isKnown = true) :
    operationType operator left right = operationType operator left' right' := by
  have hleft (p : Primitive) (h : left = .primitive p) : left = left' := hl (by rw [h]; rfl)
  have hright (p : Primitive) (h : right = .primitive p) : right = right' := hr (by rw [h]; rfl)
  have hpromote (h : (left.promote right).isKnown = true) : left = left' ∧ right = right' := by
    obtain ⟨p, q, hp, hq⟩ := primitives_of_promote h
    exact ⟨hleft p hp, hright q hq⟩
  obtain harithmetic | rfl | hshift | hbitwise := promoted_cases operator hpromoted
  · rw [operationType_arithmetic harithmetic] at hknown
    obtain ⟨rfl, rfl⟩ := hpromote hknown
    rfl
  · rw [operationType_plus] at hknown
    by_cases hstring : left = .primitive .string ∨ right = .primitive .string
    · have hstring' : left' = .primitive .string ∨ right' = .primitive .string :=
        hstring.imp (fun h => (hleft _ h).symm.trans h) fun h => (hright _ h).symm.trans h
      rw [operationType_plus, operationType_plus, if_pos hstring, if_pos hstring']
    · rw [if_neg hstring] at hknown
      obtain ⟨rfl, rfl⟩ := hpromote hknown
      rfl
  · -- The right operand of a shift may well be unknown.
    rw [operationType_shift hshift] at hknown
    cases left with
    | primitive p =>
      obtain rfl := hleft p rfl
      rw [operationType_shift hshift, operationType_shift hshift]
    | _ => cases hknown
  · rw [operationType_bitwise hbitwise] at hknown
    by_cases hbool : left = .primitive .bool ∧ right = .primitive .bool
    · obtain rfl := hleft _ hbool.1
      obtain rfl := hright _ hbool.2
      rfl
    · rw [if_neg hbool] at hknown
      obtain ⟨rfl, rfl⟩ := hpromote hknown
      rfl

/-- The type of an operation on two operands: that of the operator that they choose, or one of those
that the literal without an object can stand in. -/
theorem binaryType_cases {L R : Option StaticType}
    (h : Expr.binaryType? constant? operator l r L R = some T) :
    (∃ p q t, L = some (.primitive p) ∧ R = some (.primitive q) ∧ T = .primitive t ∧
      Signature.resolve (binarySignatures operator) (Expr.operand constant? l p)
        (Expr.operand constant? r q) = some t) ∨
    ((operator = "==" ∨ operator = "!=") ∧ T = .primitive .bool) ∨
    (operator = "+" ∧ T = .primitive .string ∧
      (L = some .null ∧ R = some (.primitive .string) ∨
        L = some (.primitive .string) ∧ R = some .null)) := by
  unfold Expr.binaryType? at h
  split at h
  case h_1 p q =>
    obtain ⟨t, ht, rfl⟩ := Option.map_eq_some_iff.mp h
    exact .inl ⟨p, q, t, rfl, rfl, rfl, ht⟩
  case h_2 p | h_3 p => grind
  case h_4 => cases h

theorem agrees_binary (hl : Agrees constant? left l) (hr : Agrees constant? right r) :
    Agrees constant? (operationType operator left right) (.binary operator l r) := by
  intro hregular T htype hknown
  rw [Expr.type?] at htype
  rw [Expr.isRegular] at hregular
  by_cases hcomparison : operator ∈ comparisons
  · rw [operationType_comparison hcomparison]
    obtain ⟨p, q, t, -, -, rfl, ht⟩ | ⟨-, rfl⟩ | ⟨rfl, -⟩ := binaryType_cases htype
    · rw [bool_of_comparison hcomparison ht]
    · rfl
    · exact absurd hcomparison (by decide)
  · have hcontains : comparisons.contains operator = false := by simpa using hcomparison
    rw [hcontains, Bool.false_or, Bool.and_eq_true, Bool.and_eq_true] at hregular
    obtain ⟨⟨hregularl, hregularr⟩, hordinary⟩ := hregular
    obtain ⟨p, q, t, hp, hq, rfl, ht⟩ | ⟨hequality, -⟩ | ⟨rfl, rfl, hnull⟩ := binaryType_cases htype
    · have hpromoted := (binary_cases ht).resolve_left hcomparison
      have hcongr := operationType_congr hpromoted (hl hregularl _ hp) (hr hregularr _ hq) hknown
      simp only [Expr.areOrdinary, hp, hq] at hordinary
      rw [hcongr] at hknown ⊢
      exact operationType_of_resolve hcomparison hordinary ht hknown
    · obtain rfl | rfl := hequality <;> exact absurd (by decide) hcomparison
    · obtain ⟨hp, hq⟩ | ⟨hp, hq⟩ := hnull
      all_goals
        rw [operationType_congr (by decide) (hl hregularl _ hp) (hr hregularr _ hq) hknown]
        rfl

/-! ### Conditionals

A conditional has the type of the branch that the other one converts to.  Both sides ask the same
questions, but of different lists of conversions, so the two lists are compared first. -/

theorem convertsTo_primitive (p q : Primitive) :
    (StaticType.primitive p).convertsTo (.primitive q) = p.converts q := by
  cases p <;> cases q <;> rfl

theorem convertsTo_null (q : Primitive) :
    StaticType.null.convertsTo (.primitive q) = (q == .string || q == .object) := by
  cases q <;> rfl

theorem not_convertsTo_null (p : Primitive) :
    (StaticType.primitive p).convertsTo .null = false := by
  cases p <;> rfl

/-- Branches of two types whose conversions are known. -/
theorem conditionalType_of_ne {P Q : StaticType} (hne : P ≠ Q) (hP : P.isKnown = true)
    (hQ : Q.isKnown = true) :
    conditionalType P Q =
      match P.convertsTo Q, Q.convertsTo P with
      | true, false => Q
      | false, true => P
      | _, _ => .unknown := by
  unfold conditionalType
  exact (if_neg (by simpa using hne)).trans (if_neg (by simp [hP, hQ]))

/-- Branches of known types have the type that the language gives them, if the program gives them
one: one of the types converts to the other, whatever constants convert besides. -/
theorem conditionalType_eq {a b : Expr} {P Q : StaticType}
    (htype : Expr.conditionalType? constant? a b P Q = some T)
    (hknown : (conditionalType P Q).isKnown = true) : conditionalType P Q = T := by
  unfold Expr.conditionalType? at htype
  by_cases hPQ : P = Q
  · subst hPQ
    rw [if_pos rfl] at htype
    split at htype
    · cases htype
    · simpa [conditionalType] using htype
  · rw [if_neg hPQ] at htype
    cases P with
    | primitive p =>
      cases Q with
      | primitive q =>
        rw [conditionalType_of_ne hPQ rfl rfl, convertsTo_primitive, convertsTo_primitive]
          at hknown ⊢
        simp only [Expr.branchConverts, Operand.converts, Expr.operand] at htype
        generalize Operand.fits ⟨q, constant? b⟩ p = fitsb at htype
        generalize Operand.fits ⟨p, constant? a⟩ q = fitsa at htype
        -- Which types convert and which constants fit: sixteen cases.
        cases hp : p.converts q <;> cases hq : q.converts p <;> cases fitsa <;> cases fitsb <;>
          simp_all [StaticType.isKnown]
      | null =>
        rw [conditionalType_of_ne hPQ rfl rfl, convertsTo_null, not_convertsTo_null] at hknown ⊢
        simp only [Expr.branchConverts] at htype
        cases hp : p == .string || p == .object <;> simp_all
      | _ => cases htype
    | null =>
      cases Q with
      | primitive q =>
        rw [conditionalType_of_ne hPQ rfl rfl, convertsTo_null, not_convertsTo_null] at hknown ⊢
        simp only [Expr.branchConverts] at htype
        cases hq : q == .string || q == .object <;> simp_all
      | null => exact absurd rfl hPQ
      | _ => cases htype
    | _ => cases Q <;> cases htype

/-- A conditional has a known type only if its branches have. -/
theorem known_of_conditionalType (h : (conditionalType left right).isKnown = true) :
    left.isKnown = true ∧ right.isKnown = true := by
  unfold conditionalType at h
  split at h
  case isTrue heq =>
    obtain rfl : left = right := by simpa using heq
    exact ⟨h, h⟩
  case isFalse =>
    split at h
    case isTrue => cases h
    case isFalse hknown => simpa using hknown

theorem agrees_conditional {a b : Expr} (ha : Agrees constant? left a)
    (hb : Agrees constant? right b) :
    Agrees constant? (conditionalType left right) (.conditional c a b) := by
  intro hregular T htype hknown
  rw [Expr.type?] at htype
  rw [Expr.isRegular, Bool.and_eq_true] at hregular
  obtain ⟨hleft, hright⟩ := known_of_conditionalType hknown
  split at htype
  case h_2 => cases htype
  case h_1 P Q _ hP hQ =>
    rw [ha hregular.1 _ hP hleft, hb hregular.2 _ hQ hright] at hknown ⊢
    exact conditionalType_eq htype hknown

end

/-! ## The types of a document

Agreement of the parts becomes agreement of whole expressions by induction over spelling, and the
search for a type ends for the same reason.  The conversion of a shift shows why the condition on
shifts is there. -/

section

variable {b : Binder} {n type : NodeId} {p : Primitive}

theorem kind_of_written {t : Tree} (h : Expr.writtenPrimitive? t type = some p) :
    t.kind type = .predefinedType := by
  unfold Expr.writtenPrimitive? at h
  split at h
  case isTrue hkind => exact beq_iff_eq.mp hkind
  case isFalse => cases h

/-- A node that writes a built-in type means it. -/
theorem resolveType_of_written (h : Expr.writtenPrimitive? b.tree type = some p) :
    b.resolveType type = .primitive p := by
  have hkind := kind_of_written h
  have hkeyword : Primitive.ofKeyword? (b.tree.text type) = some p := by
    simpa [Expr.writtenPrimitive?, hkind] using h
  have hvoid : b.tree.text type ≠ "void" := by
    intro hvoid
    rw [hvoid] at hkeyword
    cases hkeyword
  change Program.resolveTypeFuel b.program b.document _ type = _
  rw [Program.resolveTypeFuel]
  simp only [show b.document.tree = b.tree from rfl, hkind, beq_iff_eq, hvoid, if_false, hkeyword,
    Option.map_some, Option.getD_some]

/-- A cast has the type that it writes. -/
theorem writtenType_cast {c : NodeId} (hchildren : b.tree.childNodes n = [type, c])
    (htype : Expr.writtenPrimitive? b.tree type = some p) :
    b.writtenType n NodeKind.isType = .primitive p := by
  have hfind : (b.tree.childNodes n).find? (fun c => (b.tree.kind c).isType) = some type := by
    rw [hchildren, List.find?_cons_of_pos]
    rw [kind_of_written htype]
    rfl
  simp only [writtenType, hfind, Option.map_some, Option.getD_some]
  exact resolveType_of_written htype

/-- A name of a variable of a built-in type has that type. -/
theorem typeStep_named (hkind : b.tree.kind n = .identifierName)
    (hdeclared : Expr.declaredPrimitive? b.tree n = some p) :
    b.typeStep n = .ok (.primitive p) := by
  simp only [Expr.declaredPrimitive?, Option.bind_eq_some_iff] at hdeclared
  obtain ⟨type, ⟨site, hsite, htype⟩, hp⟩ := hdeclared
  have hpredefined : b.tree.kind type ≠ .identifierName := by
    rw [kind_of_written hp]
    decide
  have hlookup := lookupVariable?_of_site (b := b) hsite
  rw [variableAt_of_written htype hpredefined, resolveType_of_written hp] at hlookup
  have hname : b.lookupVariable? (b.frontName n) n = _ := hlookup
  simp only [typeStep, hkind, bindIdentifier?, hname]
  rfl

/-- **The binder's types of arithmetic.**  The search for the type of an expression ends, and what
it tells agrees with the language. -/
theorem told_of_spells {p : Program} {d : Document} (constant? : Expr → Option Int) {e : Expr}
    (h : Expr.Spells d.tree n e) :
    ∃ U, (ofDocument p d).typeOf n = .ok U ∧ Agrees constant? U e ∧
      ∀ token, e = .literal token → U = literalType token := by
  -- By the rules, the type of a node comes from those of the parts that spell its operands.
  induction h with
  | literal hkind =>
    refine ⟨_, ?_, agrees_literal _, fun token htoken => by rw [Expr.literal.inj htoken]⟩
    rw [typeOf_eq_typeStep]
    simp only [typeStep, hkind, ofDocument, tree_mk]
    rfl
  | named hkind hdeclared =>
    refine ⟨_, ?_, fun _ T htype _ => Option.some.inj htype, fun token htoken => by cases htoken⟩
    rw [typeOf_eq_typeStep]
    exact typeStep_named hkind hdeclared
  | parenthesized hkind hchildren _ he =>
    obtain ⟨U, hU, hagrees, -⟩ := he
    refine ⟨U, ?_, fun hregular T htype => hagrees hregular T htype,
      fun token htoken => by cases htoken⟩
    rw [typeOf_eq_typeStep]
    simp only [typeStep, hkind, hchildren, ofDocument, tree_mk]
    exact hU
  | unary hkind hchildren hoperator he ih =>
    obtain ⟨U, hU, hagrees, hliteral⟩ := ih
    refine ⟨_, ?_, agrees_unary hoperator hagrees fun token htoken _ => hliteral token htoken,
      fun token htoken => by cases htoken⟩
    rw [typeOf_eq_typeStep]
    simp only [typeStep, hkind, hchildren, ofDocument_tree, hU]
    rfl
  | stepBefore hkind hchildren hoperator he ih =>
    obtain ⟨U, hU, hagrees, -⟩ := ih
    refine ⟨U, ?_, agrees_step hoperator hagrees, fun token htoken => by cases htoken⟩
    rw [typeOf_eq_typeStep]
    simp only [typeStep, hkind, hchildren, ofDocument_tree, hU]
    exact congrArg Except.ok (unaryType_step hoperator)
  | stepBehind hkind hchildren hoperator he ih =>
    obtain ⟨U, hU, hagrees, -⟩ := ih
    refine ⟨U, ?_, agrees_step hoperator hagrees, fun token htoken => by cases htoken⟩
    rw [typeOf_eq_typeStep]
    simp only [typeStep, hkind, hchildren, ofDocument_tree]
    exact hU
  | binary hkind hchildren hl hr ihl ihr =>
    obtain ⟨L, hL, hleft, -⟩ := ihl
    obtain ⟨R, hR, hright, -⟩ := ihr
    refine ⟨_, ?_, agrees_binary hleft hright, fun token htoken => by cases htoken⟩
    rw [typeOf_eq_typeStep]
    simp only [typeStep, hkind, hchildren, ofDocument_tree, hL, hR]
    rfl
  | @cast _ _ _ written _ hkind hchildren htype _ _ =>
    refine ⟨.primitive written, ?_, fun _ T hT _ => ?_, fun token htoken => by cases htoken⟩
    · rw [typeOf_eq_typeStep]
      simp only [typeStep, ofDocument_tree, hkind]
      rw [writtenType_cast (b := ofDocument p d) hchildren htype]
      rfl
    · rw [Expr.type?] at hT
      obtain ⟨_, -, rfl⟩ := Option.map_eq_some_iff.mp hT
      rfl
  | conditional hkind hchildren hc ha hb ihc iha ihb =>
    obtain ⟨A, hA, hwhenTrue, -⟩ := iha
    obtain ⟨B, hB, hwhenFalse, -⟩ := ihb
    refine ⟨_, ?_, agrees_conditional hwhenTrue hwhenFalse, fun token htoken => by cases htoken⟩
    rw [typeOf_eq_typeStep]
    simp only [typeStep, hkind, hchildren, ofDocument_tree, hA, hB]
    rfl

/-- A redundant conversion returns the type that the binder knows of its argument. -/
theorem returnType_of_conversion? {invocation : NodeId} {f : Finding} {v : InvocationView}
    {a : ArgumentView} (h : Check.conversion? b invocation = .ok (some f))
    (hv : InvocationView.ofNode? b.tree invocation = some v) (ha : v.argument? b.tree 0 = some a) :
    ∃ U id m, b.typeOf a.expression = .ok U ∧ U.isKnown = true ∧
      b.resolveInvocation? invocation = .ok (some id) ∧ b.program.method? id = some m ∧
      m.returnType = U := by
  simp only [Check.conversion?, hv] at h
  split at h
  · cases h
  obtain ⟨m?, hm, h⟩ := exists_of_bind_eq_ok h
  obtain ⟨id?, hid, hm⟩ := exists_of_bind_eq_ok hm
  split at h
  next m a' hargument hcalled =>
    obtain rfl := Option.some.inj (ha.symm.trans hargument)
    obtain ⟨U, hU, h⟩ := exists_of_bind_eq_ok h
    have hfinding : Check.conversionFinding? b v m U = some f := Except.ok.inj h
    have hmethod : (id?.bind b.program.method?).filter (Check.isConversion b.program) = some m :=
      Except.ok.inj hm
    obtain ⟨hmethod, -⟩ := Option.filter_eq_some_iff.mp hmethod
    obtain ⟨id, rfl, hmethod⟩ := Option.bind_eq_some_iff.mp hmethod
    unfold Check.conversionFinding? at hfinding
    split at hfinding
    · cases hfinding
    next htypes =>
      rw [Bool.or_eq_true, not_or, Bool.not_eq_true', Bool.not_eq_false] at htypes
      exact ⟨U, id, m, hU, htypes.1, hid, hmethod, (by simpa using htypes.2 : U = m.returnType).symm⟩
  next => cases h

/-- **The types of regular arithmetic.**  The search for the type of an expression of literals,
variables, operators, casts and conditionals ends, and if the expression is regular and the type is
known, it is the type that the language gives to it.  A conversion of it that is reported as
redundant returns this type. -/
theorem known_types_of_arithmetic {p : Program} {d : Document} {constant? : Expr → Option Int}
    {e : Expr} {T : StaticType} (hread : Expr.read? d.tree n = some e)
    (hregular : e.isRegular constant? = true) (htype : e.type? constant? = some T) :
    (∃ U, (ofDocument p d).typeOf n = .ok U ∧ (U.isKnown = true → U = T)) ∧
      ∀ invocation f v a, Check.conversion? (ofDocument p d) invocation = .ok (some f) →
        InvocationView.ofNode? d.tree invocation = some v → v.argument? d.tree 0 = some a →
        a.expression = n →
        ∃ id m, (ofDocument p d).resolveInvocation? invocation = .ok (some id) ∧
          p.method? id = some m ∧ m.returnType = T := by
  obtain ⟨U, hU, hagrees, -⟩ := told_of_spells (p := p) constant?
    (Expr.spells_of_readFuel hread)
  have hsound : U.isKnown = true → U = T := hagrees hregular T htype
  refine ⟨⟨U, hU, hsound⟩, fun invocation f v a hfound hv ha hargument => ?_⟩
  obtain ⟨U', id, m, hU', hknown, hid, hm, hreturn⟩ := returnType_of_conversion? hfound hv ha
  rw [hargument] at hU'
  obtain rfl : U = U' := Except.ok.inj (hU.symm.trans hU')
  exact ⟨id, m, hid, hm, hreturn.trans (hsound hknown)⟩

end

/-- The value of an integer literal. -/
def literalValue? : Expr → Option Int
  | .literal token =>
    if token.kind = .integerLiteral then
      some (IntegerLiteral.ofText token.text.toList).value
    else none
  | _ => none

/-- A conversion of a choice between a shift and a negation. -/
def shiftOrNegate : String :=
  "class C{int M(int i,byte b,bool c){return System.Convert.ToInt32(c?(i+1)<<b:-b);}}"

/-- The choice has the type that its conversion returns. -/
theorem known_types_of_arithmetic_choice : ∃ s d e,
    Solution.ofSources [("A.cs", shiftOrNegate)] = .ok s ∧ s.documents.head? = some d ∧
      Expr.read? d.tree 22 = some e ∧ e.isRegular literalValue? = true ∧
      e.type? literalValue? = some (.primitive .int) ∧
      (ofDocument (.ofSolution s) d).typeOf 22 = .ok (.primitive .int) ∧
      ∃ f id m, Check.conversion? (ofDocument (.ofSolution s) d) 18 = .ok (some f) ∧
        (ofDocument (.ofSolution s) d).resolveInvocation? 18 = .ok (some id) ∧
        (Program.ofSolution s).method? id = some m ∧ m.returnType = .primitive .int := by
  have hrun : ((Solution.ofSources [("A.cs", shiftOrNegate)]).toOption.any fun s =>
      s.documents.head?.any fun d =>
        ((Expr.read? d.tree 22).any fun e => e.isRegular literalValue? &&
          e.type? literalValue? == some (.primitive .int)) &&
        (((ofDocument (.ofSolution s) d).typeOf 22).toOption.any StaticType.isKnown) &&
        ((Check.conversion? (ofDocument (.ofSolution s) d) 18).toOption.any Option.isSome) &&
        ((InvocationView.ofNode? d.tree 18).any fun v =>
          (v.argument? d.tree 0).any fun a => a.expression == 22)) = true := by
    decide +kernel
  cases h : Solution.ofSources [("A.cs", shiftOrNegate)] with
  | error e =>
    rw [h] at hrun
    cases hrun
  | ok s =>
    rw [h] at hrun
    simp only [Option.any_some, Except.toOption, Bool.and_eq_true, Option.any_eq_true,
      beq_iff_eq] at hrun
    obtain ⟨d, hd, ⟨⟨⟨e, hread, hregular, htype⟩, U, hU, hknown⟩, f?, hf, hfound⟩, v, hv, a, ha,
      hargument⟩ := hrun
    obtain ⟨f, rfl⟩ := Option.isSome_iff_exists.mp hfound
    have hfound := toOption_eq_some_iff.mp hf
    obtain ⟨⟨U', htyped, hsound⟩, hreported⟩ :=
      known_types_of_arithmetic (p := .ofSolution s) hread hregular htype
    obtain rfl : U' = U := Except.ok.inj (htyped.symm.trans (toOption_eq_some_iff.mp hU))
    obtain ⟨id, m, hid, hm, hreturn⟩ := hreported 18 f v a hfound hv ha hargument
    exact ⟨s, d, e, rfl, hd, hread, hregular, htype, hsound hknown ▸ htyped, f, id, m, hfound, hid,
      hm, hreturn⟩

/-- **A shift of an unsigned integer is typed as a signed one**, so that a conversion of it is
reported that changes its type. -/
theorem shifted_unsigned_is_mistyped : ∃ s d e f,
    Solution.ofSources
        [("A.cs", "class C{long M(uint u){return System.Convert.ToInt64(u<<1);}}")] = .ok s ∧
      s.documents.head? = some d ∧ Expr.read? d.tree 18 = some e ∧
      e.type? literalValue? = some (.primitive .uint) ∧
      (ofDocument (.ofSolution s) d).typeOf 18 = .ok (.primitive .long) ∧
      Check.conversion? (ofDocument (.ofSolution s) d) 14 = .ok (some f) := by
  have hrun : ((Solution.ofSources
      [("A.cs", "class C{long M(uint u){return System.Convert.ToInt64(u<<1);}}")]).toOption.any
        fun s =>
      s.documents.head?.any fun d =>
        ((Expr.read? d.tree 18).any fun e => e.type? literalValue? == some (.primitive .uint)) &&
        ((ofDocument (.ofSolution s) d).typeOf 18).toOption == some (.primitive .long) &&
        ((Check.conversion? (ofDocument (.ofSolution s) d) 14).toOption.any Option.isSome)) =
      true := by
    decide +kernel
  cases h : Solution.ofSources
      [("A.cs", "class C{long M(uint u){return System.Convert.ToInt64(u<<1);}}")] with
  | error e =>
    rw [h] at hrun
    cases hrun
  | ok s =>
    rw [h] at hrun
    simp only [Option.any_some, Except.toOption, Bool.and_eq_true, Option.any_eq_true,
      beq_iff_eq] at hrun
    obtain ⟨d, hd, ⟨⟨e, hread, htype⟩, htyped⟩, f?, hf, hfound⟩ := hrun
    obtain ⟨f, rfl⟩ := Option.isSome_iff_exists.mp hfound
    exact ⟨s, d, e, f, rfl, hd, hread, htype, toOption_eq_some_iff.mp htyped, toOption_eq_some_iff.mp hf⟩

end Binder

end CodeMend
