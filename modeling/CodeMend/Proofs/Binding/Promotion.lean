import CodeMend.Proofs.Binding.Arithmetic

/-!
# CodeMend — promotion and the predefined operators

The binder knows no predefined operators: it types a literal by its suffix, an operation on two
operands by promotion and an operation on one by its operand.  Where operands are ordinary, this is
the result of the operator that they choose.

The operators ask of an operand only its type and the types that it converts to, so of the constants
of a type one stands for all with the same conversions (`Operand.representative`), and what is left
to compare is a table.

* **`Binder.literalType_integer`** — the type of an integer literal is the first of its suffix.
* **`Binder.unaryType_of_resolve`**, **`Binder.operationType_of_resolve`** — one and two operands.
-/

namespace CodeMend

open Binder

/-! ## Suffixes of literals

A suffix is letters in either case.  Which types it admits is told by two of them. -/

theorem toNat_toLower (c : Char) :
    c.toLower.toNat = if 65 ≤ c.toNat ∧ c.toNat ≤ 90 then c.toNat + 32 else c.toNat := by
  have hrange : (c.val ≥ 'A'.val ∧ c.val ≤ 'Z'.val) ↔ 65 ≤ c.toNat ∧ c.toNat ≤ 90 := Iff.rfl
  unfold Char.toLower
  by_cases h : 65 ≤ c.toNat ∧ c.toNat ≤ 90
  · rw [dif_pos (hrange.mpr h), if_pos h]
    change (c.val + ('a'.val - 'A'.val)).toNat = c.val.toNat + 32
    have hval : c.val.toNat ≤ 90 := h.2
    rw [UInt32.toNat_add]
    change (c.val.toNat + 32) % 2 ^ 32 = c.val.toNat + 32
    omega
  · rw [dif_neg (mt hrange.mp h), if_neg h]

/-- A character is a small letter in either case if it is that letter or the capital. -/
theorem toLower_eq_iff (low up : Char) (h : low.toNat = up.toNat + 32)
    (hup : 65 ≤ up.toNat ∧ up.toNat ≤ 90) (c : Char) : c.toLower = low ↔ c = low ∨ c = up := by
  rw [← Char.toNat_inj, ← Char.toNat_inj, ← Char.toNat_inj, toNat_toLower]
  split <;> omega

namespace IntegerLiteral

theorem marksUnsigned_eq (c : Char) : marksUnsigned c = ('u' == c.toLower) := by
  have h := toLower_eq_iff 'u' 'U' rfl (by decide) c
  rw [Bool.eq_iff_iff]
  simp [marksUnsigned, eq_comm (a := 'u'), h]

theorem marksLong_eq (c : Char) : marksLong c = ('l' == c.toLower) := by
  have h := toLower_eq_iff 'l' 'L' rfl (by decide) c
  rw [Bool.eq_iff_iff]
  simp [marksLong, eq_comm (a := 'l'), h]

theorem marksLong_of_unsigned {c : Char} (h : marksUnsigned c = true) : marksLong c = false := by
  rw [marksUnsigned_eq, beq_iff_eq] at h
  rw [marksLong_eq, ← h]
  rfl

theorem isIntegerSuffix_eq (c : Char) :
    Literal.isIntegerSuffix c = (marksUnsigned c || marksLong c) := by
  simp only [Literal.isIntegerSuffix, marksUnsigned, marksLong, Bool.or_assoc]

/-- The first type that the suffix of a literal admits. -/
def first (l : IntegerLiteral) : Primitive := l.admitted.headD .int

theorem first_eq (l : IntegerLiteral) :
    l.first = if l.unsigned then if l.long then .ulong else .uint
      else if l.long then .long else .int := by
  unfold first admitted
  cases l.unsigned <;> cases l.long <;> rfl

theorem first_ofText (text : String) :
    (ofText text.toList).first =
      if endsIn text "ul" || endsIn text "lu" then .ulong
      else if endsIn text "u" then .uint
      else if endsIn text "l" then .long
      else .int := by
  obtain ⟨r, hr⟩ : ∃ r, text.toList.reverse = r := ⟨_, rfl⟩
  rw [first_eq]
  simp only [ofText, suffixOf, endsIn, hr]
  -- At most the last two characters matter, and of each of them only which mark it is.
  rcases r with - | ⟨a, - | ⟨b, rest⟩⟩
  · rfl
  · have ha := @marksLong_of_unsigned a
    cases hu : marksUnsigned a <;> cases hl : marksLong a <;>
      simp_all [List.isPrefixOf, isIntegerSuffix_eq, ← marksUnsigned_eq,
        ← marksLong_eq]
  · have ha := @marksLong_of_unsigned a
    have hb := @marksLong_of_unsigned b
    cases hu : marksUnsigned a <;> cases hl : marksLong a <;>
      cases hu' : marksUnsigned b <;> cases hl' : marksLong b <;>
        simp_all [List.isPrefixOf, isIntegerSuffix_eq, ← marksUnsigned_eq,
        ← marksLong_eq]

end IntegerLiteral

namespace Binder

/-- **An integer literal gets the first type that its suffix admits**, whatever its value. -/
theorem literalType_integer {token : Token} (h : token.kind = .integerLiteral) :
    literalType token = .primitive (IntegerLiteral.ofText token.text.toList).first := by
  rw [IntegerLiteral.first_ofText]
  simp only [literalType, h, apply_ite StaticType.primitive]

/-- A text ends in a letter, in either case, if its last character is one of the two. -/
theorem endsIn_letter {text : String} {front : List Char} {c : Char} (low up : Char)
    (htext : text.toList = front ++ [c]) (h : low.toNat = up.toNat + 32)
    (hup : 65 ≤ up.toNat ∧ up.toNat ≤ 90) :
    endsIn text (String.singleton low) = true ↔ c = low ∨ c = up := by
  rw [← toLower_eq_iff low up h hup, endsIn, htext]
  simpa [List.isPrefixOf] using eq_comm

/-- A literal that is no integer has the type that the language gives it. -/
theorem literalType_other {token : Token} {type : StaticType} (h : token.kind ≠ .integerLiteral)
    (htype : literalType? token = some type) : literalType token = type := by
  unfold literalType? at htype
  unfold literalType
  generalize token.kind = kind at h htype ⊢
  cases kind
  case integerLiteral => exact absurd rfl h
  case realLiteral =>
    dsimp only at htype ⊢
    split at htype
    case h_2 => contradiction
    case h_1 c hlast =>
      obtain ⟨front, htext⟩ := List.getLast?_eq_some_iff.mp hlast
      have hf := endsIn_letter 'f' 'F' htext rfl (by decide)
      have hm := endsIn_letter 'm' 'M' htext rfl (by decide)
      change (if endsIn token.text (String.singleton 'f') then _ else
        if endsIn token.text (String.singleton 'm') then _ else _) = type
      simp only [hf, hm]
      grind
  case stringLiteral | characterLiteral => exact Option.some.inj htype
  case keyword =>
    simp only [Bool.or_eq_true, beq_iff_eq]
    grind
  all_goals contradiction

end Binder

/-! ## Operands that stand for others

There are infinitely many constants, but a constant matters only by the types that it converts to.
So every operand is replaced by one of a few, and what is to be proved of all of them is a table. -/

theorem Primitive.exists_name (p : Primitive) : ∃ entry ∈ Primitive.names, entry.1 = p := by
  cases p <;> decide

namespace Operand

variable {x y x' y' : Operand} {p q : Primitive} {operator : String}

/-- The operand with the least constant of its type, if any, that converts to the same numeric types
among those that operators are predefined for. -/
def representative (x : Operand) : Operand :=
  { x with
    constant :=
      if x.fits .uint then some 0 else if x.fits .ulong then some 4294967296 else none }

/-- The operands that stand for all. -/
def representatives : List Operand :=
  Primitive.names.map (fun (p, _) => ⟨p, none⟩) ++
    [⟨.int, some 0⟩, ⟨.int, some 4294967296⟩, ⟨.long, some 4294967296⟩]

theorem fits_uint (x : Operand) :
    x.fits .uint = (x.type == .int && x.constant.any Primitive.uint.hasValue) := by
  cases x with
  | mk type constant => cases type <;> rfl

theorem fits_ulong (x : Operand) :
    x.fits .ulong =
      ((x.type == .int || x.type == .long) && x.constant.any Primitive.ulong.hasValue) := by
  cases x with
  | mk type constant => cases type <;> rfl

theorem ulong_of_uint {v : Int} (h : Primitive.uint.hasValue v = true) :
    Primitive.ulong.hasValue v = true := by
  simp only [Primitive.hasValue, Primitive.range?, Option.any_some, Bool.and_eq_true,
    decide_eq_true_eq] at h ⊢
  omega

/-- The representative is one of those listed, and converts to the types without a sign as the
operand does. -/
theorem representative_spec (x : Operand) :
    x.representative ∈ representatives ∧ x.representative.fits .uint = x.fits .uint ∧
      x.representative.fits .ulong = x.fits .ulong := by
  have htable : ∀ entry ∈ Primitive.names, ∀ inUint inUlong : Bool, (inUint → inUlong) →
      let r : Operand := ⟨entry.1,
        if entry.1 == .int && inUint then some 0
        else if (entry.1 == .int || entry.1 == .long) && inUlong then some 4294967296 else none⟩
      r ∈ representatives ∧ r.fits .uint = (entry.1 == .int && inUint) ∧
        r.fits .ulong = ((entry.1 == .int || entry.1 == .long) && inUlong) := by decide +kernel
  obtain ⟨entry, hmem, htype⟩ := Primitive.exists_name x.type
  have himplies : x.constant.any Primitive.uint.hasValue →
      x.constant.any Primitive.ulong.hasValue := by
    cases x.constant with
    | none => exact id
    | some v => exact ulong_of_uint
  have hspec := htable entry hmem _ _ himplies
  simp only [htype, ← fits_uint, ← fits_ulong] at hspec
  exact hspec

/-- The parameters of the operators that promotion stands for. -/
def parameters : List Primitive := .bool :: .string :: .object :: numericTypes

theorem fits_other (x : Operand) (hq : q ∈ parameters) (hu : q ≠ .uint) (hl : q ≠ .ulong) :
    x.fits q = false := by
  have htable : ∀ type, (constantTargets type).contains q = false := by
    intro type
    cases type <;> revert q <;> decide
  rw [fits, htable, Bool.false_and]

theorem converts_representative (x : Operand) (hq : q ∈ parameters) :
    x.representative.converts q = x.converts q := by
  obtain ⟨-, huint, hulong⟩ := representative_spec x
  have hfits : x.representative.fits q = x.fits q := by
    by_cases hu : q = .uint
    · rw [hu, huint]
    · by_cases hl : q = .ulong
      · rw [hl, hulong]
      · rw [fits_other _ hq hu hl, fits_other _ hq hu hl]
  rw [converts, converts, hfits]
  rfl

end Operand

/-! ## The operator chosen

The choice looks at the types of the operands and at the parameters that they convert to.  Hence
operands choose as those that stand for them. -/

namespace Signature

open Operand

variable {signatures : List Signature} {x y x' y' : Operand} {p r : Primitive} {operator : String}

/-- Operands of the same types that convert to the same parameters choose the same operator. -/
theorem resolve_congr (hx : x'.type = x.type) (hy : y'.type = y.type)
    (hleft : ∀ s ∈ signatures, x'.converts s.left = x.converts s.left)
    (hright : ∀ s ∈ signatures, y'.converts s.right = y.converts s.right) :
    resolve signatures x' y' = resolve signatures x y := by
  have hcandidates :
      signatures.filter (fun s => x'.converts s.left && y'.converts s.right) =
        signatures.filter fun s => x.converts s.left && y.converts s.right :=
    List.filter_congr fun s hs => by rw [hleft s hs, hright s hs]
  have hbetter (s s' : Signature) : better x' y' s s' = better x y s s' := by
    simp only [better, Operand.better, hx, hy]
  simp only [resolve, hcandidates, hbetter]

/-- Operands choose as those that stand for them. -/
theorem resolve_representative
    (hleft : ∀ s ∈ signatures, s.left ∈ parameters)
    (hright : ∀ s ∈ signatures, s.right ∈ parameters) :
    resolve signatures x.representative y.representative = resolve signatures x y :=
  resolve_congr rfl rfl (fun s hs => converts_representative x (hleft s hs))
    fun s hs => converts_representative y (hright s hs)

/-- Operators with one result give no other. -/
theorem result_of_resolve (hresult : ∀ s ∈ signatures, s.result = r)
    (h : resolve signatures x y = some p) : p = r := by
  simp only [resolve, Option.map_eq_some_iff] at h
  obtain ⟨s, hs, rfl⟩ := h
  exact hresult s (List.mem_filter.mp (List.mem_of_find?_eq_some hs)).1

end Signature

/-! ## Ordinary operands

On all operands but a few, promotion and the choice among operators give the same type.  The few are
named, and the rest is looked up in the table. -/

/-- The operators whose operands do not matter for their type. -/
def comparisons : List String := ["==", "!=", "<", ">", "<=", ">=", "&&", "||"]

/-- The operators that are typed by promotion, and by what strings and truth values need. -/
def promoted : List String := ["*", "/", "%", "-", "+", "<<", ">>", "&", "|", "^"]

namespace Operand

/-- The one operand is an unsigned integer and the other a constant that converts to its type. -/
def meetsConstant (x y : Operand) : Bool := x.type == .uint && y.fits .uint

/-- Promotion finds the operator that the operands choose: a shift has no unsigned integer on its
left, and no unsigned integer meets a constant elsewhere. -/
def isOrdinary (operator : String) (x y : Operand) : Bool :=
  if ["<<", ">>"].contains operator then x.type != .uint
  else !x.meetsConstant y && !y.meetsConstant x

end Operand

namespace Binder

open Operand

variable {operator : String} {x y : Operand} {p : Primitive}

/-- The types of the operations on the operands that stand for all. -/
theorem operationType_table :
    ∀ operator ∈ promoted, ∀ x ∈ representatives, ∀ y ∈ representatives,
      isOrdinary operator x y = true →
        ∀ p ∈ Signature.resolve (binarySignatures operator) x y,
          operationType operator (.primitive x.type) (.primitive y.type) = .unknown ∨
            operationType operator (.primitive x.type) (.primitive y.type) = .primitive p := by
  decide +kernel

theorem isOrdinary_representative :
    isOrdinary operator x.representative y.representative = isOrdinary operator x y := by
  obtain ⟨-, hx, -⟩ := representative_spec x
  obtain ⟨-, hy, -⟩ := representative_spec y
  simp only [isOrdinary, meetsConstant, hx, hy]
  rfl

theorem parameters_of_binary (operator : String) :
    ∀ s ∈ binarySignatures operator, s.left ∈ parameters ∧ s.right ∈ parameters := by
  unfold binarySignatures
  repeat' split
  all_goals decide

/-- Every operator that operands choose compares them or is typed by promotion. -/
theorem binary_cases (hresolve : Signature.resolve (binarySignatures operator) x y = some p) :
    operator ∈ comparisons ∨ operator ∈ promoted := by
  refine Classical.byContradiction fun hneither => ?_
  have hnil : binarySignatures operator = [] := by
    simp only [comparisons, promoted, List.mem_cons, List.not_mem_nil, or_false, not_or] at hneither
    simp [binarySignatures, hneither]
  rw [hnil] at hresolve
  cases hresolve

theorem operationType_comparison (h : operator ∈ comparisons) (left right : StaticType) :
    operationType operator left right = .primitive .bool := by
  unfold operationType
  rw [if_pos]
  exact List.contains_iff_mem.mpr h

/-- The operands of a comparison choose nothing but a truth value. -/
theorem bool_of_comparison (h : operator ∈ comparisons)
    (hresolve : Signature.resolve (binarySignatures operator) x y = some p) : p = .bool := by
  have hresult : ∀ operator ∈ comparisons, ∀ s ∈ binarySignatures operator, s.result = .bool := by
    decide
  exact Signature.result_of_resolve (hresult operator h) hresolve

/-- **An operation on two ordinary operands has the type of the operator that they choose**, where
it has a type at all. -/
theorem operationType_of_resolve (hcomparison : operator ∉ comparisons)
    (hordinary : isOrdinary operator x y = true)
    (hresolve : Signature.resolve (binarySignatures operator) x y = some p)
    (hknown :
      (operationType operator (.primitive x.type) (.primitive y.type)).isKnown = true) :
    operationType operator (.primitive x.type) (.primitive y.type) = .primitive p := by
  have hpromoted := (binary_cases hresolve).resolve_left hcomparison
  have hparameters := parameters_of_binary operator
  rw [← Signature.resolve_representative (fun s hs => (hparameters s hs).1)
    fun s hs => (hparameters s hs).2] at hresolve
  have htable := operationType_table operator hpromoted x.representative
    (representative_spec x).1 y.representative (representative_spec y).1
    (isOrdinary_representative.trans hordinary) p hresolve
  refine htable.resolve_left fun hunknown => ?_
  rw [show x.representative.type = x.type from rfl,
    show y.representative.type = y.type from rfl] at hunknown
  rw [hunknown] at hknown
  cases hknown

/-! ## One operand

The same for one operand, where the only exception is to negate an unsigned integer. -/

/-- The types of the operations on one of the operands that stand for all. -/
theorem unaryType_table :
    ∀ operator ∈ ["+", "-", "~"], ∀ x ∈ representatives, (operator = "-" → x.type ≠ .uint) →
      ∀ p ∈ Signature.resolve (unarySignatures operator) x x,
        unaryType operator (.primitive x.type) = .primitive p := by
  decide +kernel

/-- **An operation on one operand has the type of the operator that it chooses**, unless it negates
an unsigned integer. -/
theorem unaryType_of_resolve (hstep : operator ∉ steps)
    (hordinary : operator = "-" → x.type ≠ .uint)
    (hresolve : Signature.resolve (unarySignatures operator) x x = some p) :
    unaryType operator (.primitive x.type) = .primitive p := by
  by_cases hnot : operator = "!"
  · subst hnot
    have hresult : ∀ s ∈ unarySignatures "!", s.result = .bool := by decide
    rw [Signature.result_of_resolve hresult hresolve]
    rfl
  · have hoperator : operator ∈ ["+", "-", "~"] := by
      unfold unarySignatures at hresolve
      repeat' split at hresolve
      all_goals simp_all
      cases hresolve
    have hparameters : ∀ operator ∈ ["+", "-", "~"], ∀ s ∈ unarySignatures operator,
        s.left ∈ parameters ∧ s.right ∈ parameters := by decide
    rw [← Signature.resolve_representative (fun s hs => (hparameters operator hoperator s hs).1)
      fun s hs => (hparameters operator hoperator s hs).2] at hresolve
    exact unaryType_table operator hoperator x.representative (representative_spec x).1 hordinary p
      hresolve

/-- An increment leaves the type of its operand as it is. -/
theorem type_of_step {q : Primitive} (hstep : operator ∈ steps)
    (hresolve : Signature.resolve (unarySignatures operator) ⟨q, none⟩ ⟨q, none⟩ = some p) :
    p = q := by
  have htable : ∀ operator ∈ steps, ∀ entry ∈ Primitive.names,
      ∀ p ∈ Signature.resolve (unarySignatures operator) ⟨entry.1, none⟩ ⟨entry.1, none⟩,
        p = entry.1 := by decide +kernel
  obtain ⟨entry, hmem, rfl⟩ := Primitive.exists_name q
  exact htable operator hstep entry hmem p hresolve

end Binder

end CodeMend
