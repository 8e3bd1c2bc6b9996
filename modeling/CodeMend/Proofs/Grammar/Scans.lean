import CodeMend.Proofs.Grammar.Productions

/-!
# CodeMend — scans have enough steps

The functions that look ahead over types and names call each other and are bounded by a number of
steps.  A type, a name or an argument that is found takes a token, and few calls lie between two
tokens, so the bound is never met: a step more changes nothing, and the functions satisfy the
equations that a reader expects of them, without a bound.

* **`lt_of_typeFuel`** and so on — what is found ends behind its start and before the end of the
  file.
* **`steady`** — with a bound of twice the tokens left, another step changes nothing.
* **`type?_eq`**, **`tuple?_eq`**, **`name?_eq`**, **`typeArguments?_eq`**, **`argumentList?_eq`**,
  **`behind_eq`** — the equations.
-/

namespace CodeMend.Scan

open Production

variable {ts : Array Token} (hts : Ended ts)

/-! ## Tokens before the end of the file

What is asked of a token is never true of the one that ends the file, so the next index is still one
of a token. -/

include hts in
theorem lt_of_kind_ne {i : Nat} (h : (tokenAt ts i).kind ≠ .endOfFile) : i + 1 < ts.size := by
  have hend := (hts.kind_eq_iff i).not.mp h
  omega

include hts in
theorem lt_of_isMark {i : Nat} {m : String} (h : (tokenAt ts i).isMark m = true) :
    i + 1 < ts.size := by
  refine lt_of_kind_ne hts fun hend => ?_
  simp [Token.isMark, hend] at h

include hts in
theorem lt_of_isIdentifier {i : Nat} (h : (tokenAt ts i).isIdentifier = true) :
    i + 1 < ts.size := by
  refine lt_of_kind_ne hts fun hend => ?_
  simp [Token.isIdentifier, hend] at h

include hts in
theorem lt_of_isPredefinedType {i : Nat} (h : (tokenAt ts i).isPredefinedType = true) :
    i + 1 < ts.size := by
  refine lt_of_kind_ne hts fun hend => ?_
  simp [Token.isPredefinedType, hend] at h

/-! ## Brackets and question marks

A scan moves to the right and stays inside of the tokens. -/

/-- The commas from an index on end somewhere behind it, where no comma stands if there were steps
enough. -/
theorem le_skipCommas (fuel i : Nat) : i ≤ skipCommas ts fuel i := by
  induction fuel generalizing i with
  | zero => exact Nat.le_refl i
  | succ fuel ih =>
    unfold skipCommas
    split
    · exact Nat.le_of_succ_le (ih (i + 1))
    · exact Nat.le_refl i

include hts in
theorem lt_of_emptyRank? {i j : Nat} (h : emptyRank? ts i = some j) : i + 1 < j ∧ j < ts.size := by
  unfold emptyRank? at h
  dsimp only at h
  split at h
  next hclose =>
    obtain rfl := Option.some.inj h
    have hle : i + 1 ≤ skipCommas ts ts.size (i + 1) := le_skipCommas _ _
    have hlt := lt_of_isMark hts hclose
    omega
  next => cases h

include hts in
theorem suffixes_bounds (nullable : Bool) (fuel : Nat) {i : Nat} (hi : i < ts.size) :
    i ≤ suffixes ts nullable fuel i ∧ suffixes ts nullable fuel i < ts.size := by
  induction fuel generalizing i with
  | zero => exact ⟨Nat.le_refl i, hi⟩
  | succ fuel ih =>
    unfold suffixes
    split
    next hmark =>
      have hlt := lt_of_isMark hts (Bool.and_eq_true _ _ ▸ hmark).2
      have hrest := ih hlt
      omega
    split
    · split
      next j hrank =>
        have hj := lt_of_emptyRank? hts hrank
        have hrest := ih hj.2
        omega
      next => exact ⟨Nat.le_refl i, hi⟩
    · exact ⟨Nat.le_refl i, hi⟩

/-- With a step for every token left, another one changes nothing. -/
theorem suffixes_succ (hts : Ended ts) {nullable : Bool} {fuel i : Nat} (h : ts.size ≤ i + fuel) :
    suffixes ts nullable (fuel + 1) i = suffixes ts nullable fuel i := by
  induction fuel generalizing i with
  | zero =>
    -- at the end of the file there are no marks
    have hmark : ∀ m, markAt ts i m = false := by
      intro m
      by_contra hmark
      have hlt := lt_of_isMark hts (Bool.not_eq_false _ ▸ hmark)
      omega
    simp [suffixes, hmark]
  | succ fuel ih =>
    rw [suffixes]
    conv_rhs => rw [suffixes]
    split
    · exact ih (by omega)
    split
    · split
      next j hrank =>
        have hj := lt_of_emptyRank? hts hrank
        exact ih (by omega)
      next => rfl
    · rfl

/-- The index after the question marks and brackets behind a type that ends at an index. -/
def behind (ts : Array Token) (nullable : Bool) (i : Nat) : Nat :=
  suffixes ts nullable (ts.size + 1) i

include hts in
theorem behind_eq (nullable : Bool) (i : Nat) :
    behind ts nullable i =
      if nullable && markAt ts i "?" then behind ts nullable (i + 1)
      else if markAt ts i "[" then
        match emptyRank? ts i with
        | some j => behind ts nullable j
        | none => i
      else i := by
  have hsteady : ∀ j, suffixes ts nullable ts.size j = behind ts nullable j :=
    fun j => (suffixes_succ hts (by omega)).symm
  unfold behind
  rw [suffixes]
  simp only [hsteady]
  rfl

/-! ## Types and names

Scans are bounded by a number of steps.  A measure of the tokens that are left shows that with
enough steps another one changes nothing. -/

/-- The index after a type without the question marks and brackets behind it. -/
def headFuel (ts : Array Token) (fuel i : Nat) : Option Nat :=
  if (tokenAt ts i).isMark "(" then tupleFuel ts fuel (i + 1) 0
  else if (tokenAt ts i).isPredefinedType then some (i + 1)
  else nameFuel ts fuel i

theorem typeFuel_succ (fuel i : Nat) (nullable : Bool) :
    typeFuel ts (fuel + 1) i nullable = (headFuel ts fuel i).map (behind ts nullable) := by
  rw [typeFuel, headFuel]
  dsimp only
  split
  · cases tupleFuel ts fuel (i + 1) 0 <;> rfl
  split
  · rfl
  · cases nameFuel ts fuel i <;> rfl

/-- What a scan finds ends behind its start and before the end of the file. -/
structure Bounded (ts : Array Token) (fuel : Nat) : Prop where
  type : ∀ {i nullable j}, typeFuel ts fuel i nullable = some j → i < j ∧ j < ts.size
  tuple : ∀ {i seen j}, tupleFuel ts fuel i seen = some j → i < j ∧ j < ts.size
  name : ∀ {i j}, nameFuel ts fuel i = some j → i < j ∧ j < ts.size
  arguments : ∀ {i j}, argumentsFuel ts fuel i = some j → i < j ∧ j < ts.size
  argumentList : ∀ {i j}, argumentListFuel ts fuel i = some j → i < j ∧ j < ts.size

include hts in
theorem bounded (fuel : Nat) : Bounded ts fuel := by
  induction fuel with
  | zero => constructor <;> intros <;> simp_all [typeFuel, tupleFuel, nameFuel, argumentsFuel,
      argumentListFuel]
  | succ fuel ih =>
    refine ⟨?_, ?_, ?_, ?_, ?_⟩
    -- Types: a head, and then brackets and question marks.
    · intro i nullable j h
      rw [typeFuel_succ] at h
      obtain ⟨base, hbase, rfl⟩ := Option.map_eq_some_iff.mp h
      unfold headFuel at hbase
      have hlt : i < base ∧ base < ts.size := by
        split at hbase
        · have := ih.tuple hbase
          omega
        split at hbase
        next hpredefined =>
          obtain rfl := Option.some.inj hbase
          have := lt_of_isPredefinedType hts hpredefined
          omega
        · exact ih.name hbase
      have := suffixes_bounds hts nullable (ts.size + 1) hlt.2
      unfold behind
      omega
    -- Tuples: the name of an element may be missing.
    · intro i seen j h
      rw [tupleFuel] at h
      obtain ⟨element, helement, h⟩ := Option.bind_eq_some_iff.mp h
      have hlt := ih.type helement
      dsimp only at h
      have hnamed : element ≤ (if (tokenAt ts element).isIdentifier = true then element + 1
          else element) := by
        split <;> omega
      generalize (if (tokenAt ts element).isIdentifier = true then element + 1
        else element) = named at h hnamed
      split at h
      · have := ih.tuple h
        omega
      split at h
      next hclose =>
        obtain rfl := Option.some.inj h
        have := lt_of_isMark hts (Bool.and_eq_true _ _ ▸ hclose).1
        omega
      next => cases h
    -- Names: type arguments may be missing, and then nothing is passed for them.
    · intro i j h
      rw [nameFuel] at h
      split at h
      next hid =>
        dsimp only at h
        have hi := lt_of_isIdentifier hts hid
        have harguments : i < (argumentsFuel ts fuel (i + 1)).getD (i + 1) ∧
            (argumentsFuel ts fuel (i + 1)).getD (i + 1) < ts.size := by
          cases hfound : argumentsFuel ts fuel (i + 1) with
          | none => exact ⟨Nat.lt_succ_self i, hi⟩
          | some stop =>
            have := ih.arguments hfound
            exact ⟨by rw [Option.getD_some]; omega, this.2⟩
        split at h
        · have := ih.name h
          omega
        · obtain rfl := Option.some.inj h
          exact harguments
      next => cases h
    · intro i j h
      rw [argumentsFuel] at h
      split at h
      · have := ih.argumentList h
        omega
      · cases h
    · intro i j h
      rw [argumentListFuel] at h
      obtain ⟨argument, hargument, h⟩ := Option.bind_eq_some_iff.mp h
      have hlt := ih.type hargument
      split at h
      · have := ih.argumentList h
        omega
      split at h
      next hclose =>
        obtain rfl := Option.some.inj h
        have := lt_of_isMark hts hclose
        omega
      next => cases h

/-- **Steps enough.**  With twice as many steps as tokens are left, and a few more, another one
changes nothing. -/
structure Steady (ts : Array Token) (fuel : Nat) : Prop where
  type : ∀ i nullable, 2 * (ts.size - i) + 2 ≤ fuel →
    typeFuel ts (fuel + 1) i nullable = typeFuel ts fuel i nullable
  tuple : ∀ i seen, 2 * (ts.size - i) + 3 ≤ fuel →
    tupleFuel ts (fuel + 1) i seen = tupleFuel ts fuel i seen
  name : ∀ i, 2 * (ts.size - i) + 1 ≤ fuel → nameFuel ts (fuel + 1) i = nameFuel ts fuel i
  arguments : ∀ i, 2 * (ts.size - i) + 2 ≤ fuel →
    argumentsFuel ts (fuel + 1) i = argumentsFuel ts fuel i
  argumentList : ∀ i, 2 * (ts.size - i) + 3 ≤ fuel →
    argumentListFuel ts (fuel + 1) i = argumentListFuel ts fuel i

include hts in
theorem steady (fuel : Nat) : Steady ts fuel := by
  -- A scan passes a token or asks for another one at its own place, and at most two in a row do
  -- that.
  induction fuel with
  | zero => constructor <;> intros <;> omega
  | succ fuel ih =>
    refine ⟨?_, ?_, ?_, ?_, ?_⟩
    · intro i nullable h
      rw [typeFuel_succ, typeFuel_succ, headFuel, headFuel]
      by_cases hopen : (tokenAt ts i).isMark "(" = true
      · have := lt_of_isMark hts hopen
        rw [if_pos hopen, if_pos hopen, ih.tuple (i + 1) 0 (by omega)]
      · rw [if_neg hopen, if_neg hopen, ih.name i (by omega)]
    · intro i seen h
      rw [tupleFuel, tupleFuel, ih.type i true (by omega)]
      refine Option.bind_congr fun element helement => ?_
      have hlt := (bounded hts fuel).type helement
      dsimp only
      have hnamed : element ≤ (if (tokenAt ts element).isIdentifier = true then element + 1
          else element) := by
        split <;> omega
      rw [ih.tuple _ _ (by omega)]
    · intro i h
      rw [nameFuel, nameFuel]
      by_cases hid : (tokenAt ts i).isIdentifier = true
      · have hi := lt_of_isIdentifier hts hid
        rw [if_pos hid, if_pos hid, ih.arguments (i + 1) (by omega)]
        dsimp only
        have hle : i + 1 ≤ (argumentsFuel ts fuel (i + 1)).getD (i + 1) := by
          cases hfound : argumentsFuel ts fuel (i + 1) with
          | none => exact Nat.le_refl _
          | some stop => exact ((bounded hts fuel).arguments hfound).1.le
        rw [ih.name _ (by omega)]
      · rw [if_neg hid, if_neg hid]
    · intro i h
      rw [argumentsFuel, argumentsFuel]
      by_cases hopen : markAt ts i "<" = true
      · have := lt_of_isMark hts hopen
        rw [if_pos hopen, if_pos hopen, ih.argumentList (i + 1) (by omega)]
      · rw [if_neg hopen, if_neg hopen]
    · intro i h
      rw [argumentListFuel, argumentListFuel, ih.type i true (by omega)]
      refine Option.bind_congr fun argument hargument => ?_
      have hlt := (bounded hts fuel).type hargument
      rw [ih.argumentList _ (by omega)]

/-- More steps than the allowance change nothing. -/
theorem steady_allowance (hts : Ended ts) {fuel : Nat} (h : allowance ts ≤ fuel) :
    (∀ i nullable, typeFuel ts fuel i nullable = type? ts i nullable) ∧
      (∀ i, nameFuel ts fuel i = name? ts i) ∧
      ∀ i, argumentsFuel ts fuel i = typeArguments? ts i := by
  induction fuel, h using Nat.le_induction with
  | base => exact ⟨fun _ _ => rfl, fun _ => rfl, fun _ => rfl⟩
  | succ fuel hle ih =>
    obtain ⟨htype, hname, harguments⟩ := ih
    unfold allowance at hle
    refine ⟨fun i nullable => ?_, fun i => ?_, fun i => ?_⟩
    · rw [(steady hts fuel).type i nullable (by omega), htype]
    · rw [(steady hts fuel).name i (by omega), hname]
    · rw [(steady hts fuel).arguments i (by omega), harguments]

/-! ## The equations

With the steps gone, what remains are the equations by which a scan is defined in the first place.
-/

/-- The index after a tuple type of which some elements were seen. -/
def tuple? (ts : Array Token) (i seen : Nat) : Option Nat := tupleFuel ts (allowance ts) i seen

/-- The index after the type arguments that are left and their closing bracket. -/
def argumentList? (ts : Array Token) (i : Nat) : Option Nat := argumentListFuel ts (allowance ts) i

/-- The index after the name of a tuple element, if one stands there. -/
def behindName (ts : Array Token) (i : Nat) : Nat :=
  if (tokenAt ts i).isIdentifier then i + 1 else i

/-- A step less than the allowance is enough as well. -/
theorem steady_below (hts : Ended ts) : ∃ fuel, allowance ts = fuel + 1 ∧
    (∀ i nullable, typeFuel ts fuel i nullable = type? ts i nullable) ∧
    (∀ i seen, tupleFuel ts fuel i seen = tuple? ts i seen) ∧
    (∀ i, nameFuel ts fuel i = name? ts i) ∧
    (∀ i, argumentsFuel ts fuel i = typeArguments? ts i) ∧
    ∀ i, argumentListFuel ts fuel i = argumentList? ts i := by
  have h := steady hts (8 * ts.size + 7)
  exact ⟨8 * ts.size + 7, rfl, fun i n => (h.type i n (by omega)).symm,
    fun i seen => (h.tuple i seen (by omega)).symm, fun i => (h.name i (by omega)).symm,
    fun i => (h.arguments i (by omega)).symm, fun i => (h.argumentList i (by omega)).symm⟩

include hts

theorem type?_eq (i : Nat) (nullable : Bool) :
    type? ts i nullable =
      (if (tokenAt ts i).isMark "(" then tuple? ts (i + 1) 0
        else if (tokenAt ts i).isPredefinedType then some (i + 1)
        else name? ts i).map (behind ts nullable) := by
  obtain ⟨fuel, hfuel, -, htuple, hname, -, -⟩ := steady_below hts
  rw [type?, hfuel, typeFuel_succ, headFuel, htuple, hname]

theorem tuple?_eq (i seen : Nat) :
    tuple? ts i seen = (type? ts i true).bind fun j =>
      if markAt ts (behindName ts j) "," then tuple? ts (behindName ts j + 1) (seen + 1)
      else if markAt ts (behindName ts j) ")" && seen + 1 ≥ 2 then some (behindName ts j + 1)
      else none := by
  obtain ⟨fuel, hfuel, htype, htuple, -, -, -⟩ := steady_below hts
  rw [tuple?, hfuel, tupleFuel, htype]
  refine Option.bind_congr fun j _ => ?_
  simp only [htuple, behindName]
  rfl

theorem name?_eq (i : Nat) :
    name? ts i =
      if (tokenAt ts i).isIdentifier then
        let j := (typeArguments? ts (i + 1)).getD (i + 1)
        if (markAt ts j "." || markAt ts j "::") && (tokenAt ts (j + 1)).isIdentifier then
          name? ts (j + 1)
        else some j
      else none := by
  obtain ⟨fuel, hfuel, -, -, hname, harguments, -⟩ := steady_below hts
  rw [name?, hfuel, nameFuel, harguments]
  simp only [hname]

theorem typeArguments?_eq (i : Nat) :
    typeArguments? ts i = if markAt ts i "<" then argumentList? ts (i + 1) else none := by
  obtain ⟨fuel, hfuel, -, -, -, -, hlist⟩ := steady_below hts
  rw [typeArguments?, hfuel, argumentsFuel, hlist]

theorem argumentList?_eq (i : Nat) :
    argumentList? ts i = (type? ts i true).bind fun j =>
      if markAt ts j "," then argumentList? ts (j + 1)
      else if markAt ts j ">" then some (j + 1)
      else none := by
  obtain ⟨fuel, hfuel, htype, -, -, -, hlist⟩ := steady_below hts
  rw [argumentList?, hfuel, argumentListFuel, htype]
  refine Option.bind_congr fun j _ => ?_
  rw [hlist]

theorem lt_of_type? {i j : Nat} {nullable : Bool} (h : type? ts i nullable = some j) :
    i < j ∧ j < ts.size :=
  (bounded hts _).type h

theorem lt_of_tuple? {i seen j : Nat} (h : tuple? ts i seen = some j) : i < j ∧ j < ts.size :=
  (bounded hts _).tuple h

theorem lt_of_name? {i j : Nat} (h : name? ts i = some j) : i < j ∧ j < ts.size :=
  (bounded hts _).name h

theorem lt_of_typeArguments? {i j : Nat} (h : typeArguments? ts i = some j) :
    i < j ∧ j < ts.size :=
  (bounded hts _).arguments h

end CodeMend.Scan
