import CodeMend.Proofs.Grammar.Lands
import CodeMend.Proofs.Grammar.Parse

/-!
# CodeMend — what is scanned as a type is read as one

Whether a type stands ahead is found out by a scan, which builds nothing; the type is then read by a
rule of its own, which decides again at each name whether type arguments follow it.  The two agree:
where the scan finds a type, the rule reads one and stops at the same index.

* **`lands_type`** — one step of the rule for types, over rules that agree with the scan further on.
* **`lands_rulesOfDepth`** — the rule for types agrees with the scan, by induction on the depth.
* **`Trusts`** — what the parser does on the strength of a scan, and that it does not fail inside.
* **`scanned_types_are_read`** — the rules of every depth that is enough may trust the scan.
-/

namespace CodeMend.Grammar

open CodeMend.Parser Production
open Scan (markAt)

/-! ## Brackets and question marks

Scan and rule both pass brackets one after the other, and the rule begins a new node for each pair.
-/

section Suffixes

variable {ts : Array Token} (hts : Ended ts) {i j : Nat} {nullable : Bool}
  {cp : Checkpoint}

include hts

/-- The commas between brackets. -/
theorem lands_commas {fuel steps : Nat} (hi : i < ts.size) (hsteps : ts.size ≤ i + steps)
    (hfuel : ts.size ≤ i + fuel) :
    Lands ts (manyWhileFuel (·.atMark ",") bump fuel) i (Scan.skipCommas ts steps i) := by
  induction steps generalizing i fuel with
  | zero => omega
  | succ steps ih =>
    obtain ⟨fuel, rfl⟩ : ∃ f, fuel = f + 1 := ⟨fuel - 1, by omega⟩
    unfold Scan.skipCommas
    split
    next hcomma =>
      have hnext := Scan.lt_of_isMark hts hcomma
      exact .round (fun _ => hcomma) (.bump hnext) (ih hnext (by omega) (by omega))
    next hcomma => exact .stop fun _ => Bool.eq_false_iff.mpr hcomma

theorem lands_emptyRank (hopen : markAt ts i "[" = true) (h : Scan.emptyRank? ts i = some j) :
    Lands ts emptyRank i j := by
  unfold Scan.emptyRank? at h
  dsimp only at h
  split at h
  next hclose =>
    obtain rfl := Option.some.inj h
    have hi := Scan.lt_of_isMark hts hopen
    refine .node _ (.seq_cons (.bump hi) (.seq_cons (.manyWhile ?_) (.single (.expect hts hclose))))
    exact lands_commas hts hi (by omega) (by omega)
  next => cases h

/-- Several pairs of brackets: behind all of them the same marks are left as in front of them. -/
theorem exists_lands_ranks (nullable : Bool) {fuel : Nat} (hi : i < ts.size)
    (hfuel : ts.size ≤ i + fuel) :
    ∃ k, Lands ts (manyWhileFuel atEmptyRank (one emptyRank) fuel) i k ∧ i ≤ k ∧ k < ts.size ∧
      (atEmptyRank ⟨ts, i, .ofTokens 0⟩ = true → i < k) ∧
      Scan.behind ts nullable k = Scan.behind ts nullable i := by
  induction fuel generalizing i with
  | zero => omega
  | succ fuel ih =>
    cases hat : atEmptyRank ⟨ts, i, .ofTokens 0⟩ with
    | false => exact ⟨i, .stop fun _ => hat, Nat.le_refl i, hi, by simp, rfl⟩
    | true =>
      obtain ⟨hopen, hsome⟩ := (Bool.and_eq_true _ _ ▸ hat :)
      replace hopen : markAt ts i "[" = true := hopen
      obtain ⟨next, hnext⟩ := Option.isSome_iff_exists.mp hsome
      replace hnext : Scan.emptyRank? ts i = some next := hnext
      have hlt := Scan.lt_of_emptyRank? hts hnext
      obtain ⟨k, hk, hle, hksize, -, hbehind⟩ := ih hlt.2 (by omega)
      refine ⟨k, .round (fun _ => hat) (lands_emptyRank hts hopen hnext).one hk, by omega, hksize,
        fun _ => by omega, ?_⟩
      have hmark : markAt ts i "?" = false := by
        simp [markAt, Token.isMark, text_of_isMark hopen]
      rw [hbehind, Scan.behind_eq hts nullable i]
      simp [hmark, hopen, hnext]

/-- What stands behind a type belongs to it as far as the scan says. -/
theorem lands_suffixes {fuel : Nat} (hi : i < ts.size) (hfuel : ts.size ≤ i + fuel) (s : Shape) :
    Lands ts (growFuel (typeSuffix? nullable cp) fuel s) i (Scan.behind ts nullable i) := by
  induction fuel generalizing i s with
  | zero => omega
  | succ fuel ih =>
    cases hmark : nullable && markAt ts i "?" with
    | true =>
      have hnext := Scan.lt_of_isMark hts (Bool.and_eq_true _ _ ▸ hmark).2
      rw [Scan.behind_eq hts, if_pos hmark]
      refine .wrap (fun _ => if_pos hmark) ?_ (ih hnext (by omega))
      exact .node _ (.seq_cons (.pure [s] i) (.single (.bump hnext)))
    | false =>
      have hnot : ¬(nullable && markAt ts i "?") = true := by simp [hmark]
      cases hat : atEmptyRank ⟨ts, i, .ofTokens 0⟩ with
      | true =>
        obtain ⟨k, hk, -, hksize, hlt, hbehind⟩ :=
          exists_lands_ranks hts nullable hi (show ts.size ≤ i + (ts.size + 1) by omega)
        have hik := hlt hat
        rw [← hbehind]
        refine .wrap (fun _ => (if_neg hnot).trans (if_pos hat)) ?_ (ih hksize (by omega))
        exact .node _ (.seq_cons (.pure [s] i) (.single (.manyWhile hk)))
      | false =>
        have hstop : Scan.behind ts nullable i = i := by
          rw [Scan.behind_eq hts, if_neg hnot]
          split
          next hopen =>
            have hnone : Scan.emptyRank? ts i = none := by
              have hmark : Cursor.atMark ⟨ts, i, .ofTokens 0⟩ "[" = true := hopen
              simpa [atEmptyRank, hmark] using hat
            rw [hnone]
          next => rfl
        rw [hstop]
        exact .grown fun _ => (if_neg hnot).trans (if_neg (Bool.eq_false_iff.mp hat))

end Suffixes

/-! ## Names and types

The scan is taken apart by its equations and the rule by its runs.  Each part of a type that the
scan has found is read by the rule, and the induction is on the depth of the rules. -/

section Types

variable {ts : Array Token} (hts : Ended ts) {rules : Rules} {i j : Nat}

/-- Behind an index, the rule for types reads what the scan finds. -/
def ReadsScanned (ts : Array Token) (rules : Rules) (i : Nat) : Prop :=
  ∀ {k j : Nat}, i < k → Scan.type? ts k true = some j → Lands ts (rules (.type true)) k j

include hts

/-- Type arguments with commas between them, up to the closing bracket. -/
theorem lands_argumentList (hr : ReadsScanned ts rules i) {k : Nat} (hk : i < k)
    (h : Scan.argumentList? ts k = some j) {fuel : Nat} (hfuel : ts.size ≤ k + fuel) :
    ∃ next stop, Lands ts (rules (.type true)) k next ∧
      Lands ts (manyWhileFuel (·.atMark ",") (seq [bump, one (rules (.type true))]) fuel)
        next stop ∧
      markAt ts stop ">" = true ∧ j = stop + 1 := by
  induction fuel generalizing k with
  | zero =>
    rw [Scan.argumentList?_eq hts] at h
    obtain ⟨next, hnext, -⟩ := Option.bind_eq_some_iff.mp h
    have := Scan.lt_of_type? hts hnext
    omega
  | succ fuel ih =>
    rw [Scan.argumentList?_eq hts] at h
    obtain ⟨next, hnext, h⟩ := Option.bind_eq_some_iff.mp h
    have hlt := Scan.lt_of_type? hts hnext
    split at h
    next hcomma =>
      obtain ⟨next', stop, hfirst, hrest, hclose, hj⟩ := ih (by omega) h (by omega)
      have hbump := Lands.bump (Scan.lt_of_isMark hts hcomma)
      refine ⟨next, stop, hr hk hnext, .round (fun _ => hcomma) ?_ hrest, hclose, hj⟩
      exact hbump.seq_cons hfirst.one.single
    next hcomma =>
      split at h
      next hclose =>
        refine ⟨next, next, hr hk hnext, .stop fun _ => Bool.eq_false_iff.mpr hcomma, hclose, ?_⟩
        exact (Option.some.inj h).symm
      next => cases h

theorem lands_typeArgumentList (hr : ReadsScanned ts rules i)
    (h : Scan.typeArguments? ts (i + 1) = some j) :
    Lands ts (typeArgumentList rules) (i + 1) j := by
  rw [Scan.typeArguments?_eq hts] at h
  split at h
  next hopen =>
    obtain ⟨next, stop, hfirst, hrest, hclose, rfl⟩ :=
      lands_argumentList hts hr (by omega) h (show ts.size ≤ i + 1 + 1 + (ts.size + 1) by omega)
    refine .node _ (.seq_cons (.expect hts hopen) (.seq_cons ?_ (.single (.expect hts hclose))))
    exact .seq_cons hfirst.one (.single (.manyWhile hrest))
  next => cases h

/-- At a name the rule asks the scan again whether type arguments follow it. -/
theorem lands_simpleTypeName (hr : ReadsScanned ts rules i)
    (hid : (tokenAt ts i).isIdentifier = true) :
    Lands ts (simpleTypeName rules) i ((Scan.typeArguments? ts (i + 1)).getD (i + 1)) := by
  have hbump := Lands.bump (Scan.lt_of_isIdentifier hts hid)
  refine Lands.choose fun b => ?_
  rw [if_neg (by simp [Cursor.atIdentifier, Cursor.current, hid])]
  dsimp only
  cases hfound : Scan.typeArguments? ts (i + 1) with
  | none =>
    rw [if_neg (by simp)]
    exact .node _ hbump
  | some stop =>
    rw [if_pos (by simp)]
    exact .node _ (.seq_cons hbump (.single (lands_typeArgumentList hts hr hfound).one))

/-- The qualifiers of a name. -/
theorem lands_qualifiers (cp : Checkpoint) (hr : ReadsScanned ts rules i) {k : Nat} (hk : i ≤ k)
    (h : Scan.name? ts k = some j) {fuel : Nat} (hfuel : ts.size ≤ k + fuel) :
    ∃ next, Lands ts (simpleTypeName rules) k next ∧
      ∀ s, Lands ts (growFuel (fun c =>
        if (c.atMark "." || c.atMark "::") && (c.nth 1).isIdentifier then
          some fun front => nodeAt cp .qualifiedName
            (seq [pure [front], bump, one (simpleTypeName rules)])
        else none) fuel s) next j := by
  induction fuel generalizing k with
  | zero =>
    rw [Scan.name?_eq hts] at h
    split at h
    next hid =>
      have := Scan.lt_of_isIdentifier hts hid
      omega
    next => cases h
  | succ fuel ih =>
    rw [Scan.name?_eq hts] at h
    split at h
    next hid =>
      dsimp only at h
      have hhere : ReadsScanned ts rules k := fun hlt => hr (by omega)
      refine ⟨_, lands_simpleTypeName hts hhere hid, fun s => ?_⟩
      have hle : k + 1 ≤ (Scan.typeArguments? ts (k + 1)).getD (k + 1) := by
        cases hfound : Scan.typeArguments? ts (k + 1) with
        | none => exact Nat.le_refl _
        | some stop => exact (Scan.lt_of_typeArguments? hts hfound).1.le
      generalize (Scan.typeArguments? ts (k + 1)).getD (k + 1) = next at h hle ⊢
      split at h
      next hqualified =>
        obtain ⟨next', hname, hrest⟩ := ih (by omega) h (by omega)
        -- The scan sees the point and the name behind it, which is what the loop asks for.
        refine .wrap (fun _ => if_pos hqualified) ?_ hrest
        have hpoint : next + 1 < ts.size := by
          have := Scan.lt_of_isIdentifier hts (Bool.and_eq_true _ _ ▸ hqualified).2
          omega
        exact .node _ (.seq_cons (.pure [s] next) (.seq_cons (.bump hpoint) (.single hname.one)))
      next hqualified =>
        obtain rfl := Option.some.inj h
        exact .grown fun _ => if_neg hqualified
    next => cases h

theorem lands_typeName (hr : ReadsScanned ts rules i) (h : Scan.name? ts i = some j) :
    Lands ts (typeName rules) i j := by
  refine Lands.checkpoint fun cp => ?_
  obtain ⟨next, hfirst, hrest⟩ :=
    lands_qualifiers hts cp hr (Nat.le_refl i) h (show ts.size ≤ i + (ts.size + 1) by omega)
  exact hfirst.bind fun s => Lands.get fun _ => hrest s

theorem lands_tupleTypeElement {k next : Nat} (h : Lands ts (rules (.type true)) k next) :
    Lands ts (tupleTypeElement rules) k (Scan.behindName ts next) := by
  refine .node _ (.seq_cons h.one (.single ?_))
  unfold Scan.behindName
  split
  next hid => exact .whenAt (fun _ => hid) (.bump (Scan.lt_of_isIdentifier hts hid))
  next hid => exact .whenAt_not fun _ => Bool.eq_false_iff.mpr hid

/-- The elements of a tuple with commas between them, up to the closing parenthesis. -/
theorem lands_elements (hr : ReadsScanned ts rules i) {k seen : Nat} (hk : i < k)
    (h : Scan.tuple? ts k seen = some j) {fuel : Nat} (hfuel : ts.size ≤ k + fuel) :
    ∃ next stop, Lands ts (tupleTypeElement rules) k next ∧
      Lands ts (manyWhileFuel (·.atMark ",") (seq [bump, one (tupleTypeElement rules)]) fuel)
        next stop ∧
      markAt ts stop ")" = true ∧ j = stop + 1 := by
  induction fuel generalizing k seen with
  | zero =>
    rw [Scan.tuple?_eq hts] at h
    obtain ⟨next, hnext, -⟩ := Option.bind_eq_some_iff.mp h
    have := Scan.lt_of_type? hts hnext
    omega
  | succ fuel ih =>
    rw [Scan.tuple?_eq hts] at h
    obtain ⟨next, hnext, h⟩ := Option.bind_eq_some_iff.mp h
    have hlt := Scan.lt_of_type? hts hnext
    have hle : next ≤ Scan.behindName ts next := by
      unfold Scan.behindName
      split <;> omega
    have helement := lands_tupleTypeElement hts (hr hk hnext)
    split at h
    next hcomma =>
      obtain ⟨next', stop, hfirst, hrest, hclose, hj⟩ := ih (by omega) h (by omega)
      have hbump := Lands.bump (Scan.lt_of_isMark hts hcomma)
      refine ⟨_, stop, helement, .round (fun _ => hcomma) ?_ hrest, hclose, hj⟩
      exact hbump.seq_cons hfirst.one.single
    next hcomma =>
      split at h
      next hclose =>
        refine ⟨_, _, helement, .stop fun _ => Bool.eq_false_iff.mpr hcomma,
          (Bool.and_eq_true _ _ ▸ hclose).1, (Option.some.inj h).symm⟩
      next => cases h

theorem lands_tupleType (hr : ReadsScanned ts rules i) (hopen : markAt ts i "(" = true)
    (h : Scan.tuple? ts (i + 1) 0 = some j) : Lands ts (tupleType rules) i j := by
  obtain ⟨next, stop, hfirst, hrest, hclose, rfl⟩ :=
    lands_elements hts hr (Nat.lt_succ_self i) h (show ts.size ≤ i + 1 + (ts.size + 1) by omega)
  refine .node _ (.seq_cons (.expect hts hopen) (.seq_cons ?_ (.single (.expect hts hclose))))
  exact .seq_cons hfirst.one (.single (.manyWhile hrest))

/-- **One step of the rule for types.**  Over rules that read what is scanned further on, it reads
what is scanned. -/
theorem lands_type (hr : ReadsScanned ts rules i) {nullable : Bool}
    (h : Scan.type? ts i nullable = some j) : Lands ts (type rules nullable) i j := by
  rw [Scan.type?_eq hts] at h
  obtain ⟨base, hbase, rfl⟩ := Option.map_eq_some_iff.mp h
  refine Lands.checkpoint fun cp => ?_
  have hgrow : ∀ s, base < ts.size →
      Lands ts (grow (typeSuffix? nullable cp) s) base (Scan.behind ts nullable base) :=
    fun s hlt => .grow fun s => lands_suffixes hts hlt (by omega) s
  refine Lands.get fun b => ?_
  split at hbase
  next hopen =>
    rw [if_pos (show Cursor.atMark ⟨ts, i, b⟩ "(" = true from hopen)]
    exact (lands_tupleType hts hr hopen hbase).bind
      fun s => hgrow s (Scan.lt_of_tuple? hts hbase).2
  next hopen =>
  rw [if_neg (show ¬Cursor.atMark ⟨ts, i, b⟩ "(" = true from hopen)]
  split at hbase
  next hpredefined =>
    rw [if_pos (show (Cursor.current ⟨ts, i, b⟩).isPredefinedType = true from hpredefined)]
    obtain rfl := Option.some.inj hbase
    have hlt := Scan.lt_of_isPredefinedType hts hpredefined
    exact (Lands.node .predefinedType (.bump hlt)).bind fun s => hgrow s hlt
  next hpredefined =>
    rw [if_neg (show ¬(Cursor.current ⟨ts, i, b⟩).isPredefinedType = true from hpredefined)]
    exact (lands_typeName hts hr hbase).bind fun s => hgrow s (Scan.lt_of_name? hts hbase).2

/-- **The rule for types agrees with the scan**, at every depth that is enough for the tokens
left. -/
theorem lands_rulesOfDepth {nullable : Bool} {depth : Nat} (hdepth : ts.size < i + depth)
    (h : Scan.type? ts i nullable = some j) :
    Lands ts (rulesOfDepth depth (.type nullable)) i j := by
  induction depth generalizing i j nullable with
  | zero =>
    have := Scan.lt_of_type? hts h
    omega
  | succ depth ih => exact lands_type hts (fun hlt htype => ih (by omega) htype) h

end Types

/-! ## What is done on the strength of a scan

Where the grammar chooses on the strength of a scan, what was scanned can be read.  Nothing is
promised of what comes behind it. -/

/-- At an index, the rules may trust the scan: what is chosen on the strength of it does not fail
inside the type that was scanned, and stops where that ends. -/
structure Trusts (ts : Array Token) (rules : Rules) (i : Nat) : Prop where
  type : ∀ {nullable j}, Scan.type? ts i nullable = some j →
    Lands ts (rules (.type nullable)) i j
  /-- A cast: its type and both parentheses are read. -/
  cast : ∀ {b}, Cursor.atMark ⟨ts, i, b⟩ "(" = true → atCast ⟨ts, i, b⟩ = true →
    ∃ j, Scan.type? ts (i + 1) true = some j ∧
      Lands ts (seq [bump, one (rules (.type true)), expect ")"]) i (j + 1)
  /-- A local declaration: its type and its first name are read, and a value, another name or the
  end of the declaration follows. -/
  localDeclaration : ∀ {b}, atLocalDeclaration ⟨ts, i, b⟩ = true →
    ∃ j, Scan.type? ts i true = some j ∧
      Lands ts (seq [one (rules (.type true)), expectIdentifier]) i (j + 1) ∧
      ["=", ";", ","].any (tokenAt ts (j + 1)).isMark = true
  /-- A declaration in the place of an expression or a pattern is read to its end. -/
  declaration : ∀ {followers}, (Scan.typedName? ts i followers).isSome = true →
    ∃ j, Scan.type? ts i true = some j ∧
      Lands ts (declarationOrExpression rules followers) i (j + 1) ∧
      Lands ts (declarationPattern rules true) i (j + 1)
  /-- A pattern that is a type, with a name or without, is read to its end. -/
  pattern : ∀ {b j}, Scan.type? ts i false = some j →
    (Cursor.atContextual ⟨ts, i, b⟩ "not" && (tokenAt ts (i + 1)).kind != .punctuation) = false →
    startsConstant (tokenAt ts i) = false →
    Lands ts (pattern rules) i
      (if (tokenAt ts j).isIdentifier && !(["and", "or", "when"].contains (tokenAt ts j).text)
        then j + 1 else j)

section Trusts

variable {ts : Array Token} (hts : Ended ts) {rules : Rules} {i j : Nat}

/-- A scan for a type and a name. -/
theorem exists_of_typedName? {followers : Scan.Followers}
    (h : (Scan.typedName? ts i followers).isSome = true) :
    ∃ j, Scan.type? ts i true = some j ∧ (tokenAt ts j).isIdentifier = true ∧
      followers.allows (tokenAt ts (j + 1)) = true := by
  obtain ⟨j, h⟩ := Option.isSome_iff_exists.mp h
  obtain ⟨j', htype, h⟩ := Option.bind_eq_some_iff.mp h
  split at h
  next hname =>
    obtain ⟨hid, hfollowers⟩ := (Bool.and_eq_true _ _ ▸ hname :)
    exact ⟨j', htype, hid, hfollowers⟩
  next => cases h

include hts

/-- **The rules may trust the scan.**  Over all tokens of which the last one alone marks the end of
the file, at every index and for rules of a depth that is enough for the tokens left: where the scan
finds a type, the rule for types succeeds and stops at the index that the scan found.  So the type
of a cast, a local declaration, a declaration in an expression or a pattern that was chosen on the
strength of a scan is read without an error and to the place where the scan saw it end. -/
theorem scanned_types_are_read {depth : Nat} (hdepth : ts.size < i + depth) :
    Trusts ts (rulesOfDepth depth) i where
  type := lands_rulesOfDepth hts hdepth
  cast := by
    intro b hopen hcast
    unfold atCast at hcast
    split at hcast
    · cases hcast
    next stop hstop =>
      obtain ⟨hclose, -⟩ := (Bool.and_eq_true _ _ ▸ hcast :)
      have htype := lands_rulesOfDepth hts (show ts.size < i + 1 + depth by omega) hstop
      refine ⟨stop, hstop, ?_⟩
      refine .seq_cons (.bump (Scan.lt_of_isMark hts hopen)) ?_
      exact .seq_cons htype.one (.single (.expect hts hclose))
  localDeclaration := by
    intro b h
    obtain ⟨j, hj, hid, hfollowers⟩ := exists_of_typedName? (Bool.and_eq_true _ _ ▸ h).2
    refine ⟨j, hj, ?_, by simpa [Scan.Followers.allows] using hfollowers⟩
    exact .seq_cons (lands_rulesOfDepth hts hdepth hj).one (.single (.expectIdentifier hts hid))
  declaration := by
    intro followers h
    obtain ⟨j, hj, hid, -⟩ := exists_of_typedName? h
    have hparts : Lands ts (seq [one (rulesOfDepth depth (.type true)),
        one singleVariableDesignation]) i (j + 1) :=
      .seq_cons (lands_rulesOfDepth hts hdepth hj).one
        (.single (lands_singleVariableDesignation hts hid).one)
    refine ⟨j, hj, .choose fun b => ?_, .node _ hparts⟩
    rw [if_pos h]
    exact .node _ hparts
  pattern := by
    intro b j hj hnot hconstant
    refine .choose fun b' => ?_
    dsimp only
    -- Neither the word that negates nor a constant stands here, so the rule looks for a type.
    rw [if_neg (show ¬(Cursor.atContextual ⟨ts, i, b'⟩ "not" &&
      (Cursor.nth ⟨ts, i, b'⟩ 1).kind != .punctuation) = true from Bool.eq_false_iff.mp hnot)]
    rw [if_neg (show ¬startsConstant (Cursor.current ⟨ts, i, b'⟩) = true from
      Bool.eq_false_iff.mp hconstant)]
    have htype := lands_rulesOfDepth hts hdepth hj
    simp only [hj]
    split
    next hname =>
      obtain ⟨hid, -⟩ := (Bool.and_eq_true _ _ ▸ hname :)
      exact .node _ (.seq_cons htype.one (.single (lands_singleVariableDesignation hts hid).one))
    next => exact .node _ htype.one

end Trusts

/-- A generic type over a tuple, with question marks and brackets inside and behind. -/
theorem scanned_types_are_read_nested :
    ∃ tokens, tokenize "a.B<(int, c[,]? x), d>?[] y;" = .ok tokens ∧ Ended tokens.toArray ∧
      tokens.toArray.size < 0 + 30 ∧ Scan.type? tokens.toArray 0 true = some 20 ∧
      Lands tokens.toArray (rulesOfDepth 30 (.type true)) 0 20 := by
  have hrun : (tokenize "a.B<(int, c[,]? x), d>?[] y;").toOption.map
      (fun tokens => (tokens.toArray.size, Scan.type? tokens.toArray 0 true)) =
        some (23, some 20) := by
    decide +kernel
  cases h : tokenize "a.B<(int, c[,]? x), d>?[] y;" with
  | error e =>
    rw [h] at hrun
    cases hrun
  | ok tokens =>
    rw [h] at hrun
    simp only [Except.toOption, Option.map_some, Option.some.injEq, Prod.mk.injEq] at hrun
    obtain ⟨hsize, htype⟩ := hrun
    have hts := ended_of_tokenize h
    have hdepth : tokens.toArray.size < 0 + 30 := by omega
    exact ⟨tokens, rfl, hts, hdepth, htype, (scanned_types_are_read hts hdepth).type htype⟩

end CodeMend.Grammar
