import CodeMend.Proofs.Flow.Accounts

/-!
# CodeMend — statements that account for a trace

The form of a statement accounts for a trace when its outcome is right at the exit of the trace, and
when its early reads hold every variable that the trace reads first.

* **`Outcome.Covers`** — what an outcome says about one exit.
* **`Stmt.Accounts`** — the form of a statement accounts for a trace and an exit.
* **`Stmt.Accounts.again`** — a loop needs no second look: a further round begins where it began.
* **`Stmt.Accounts.chosen`** — a section of a switch that is entered through one of its labels.
-/

namespace CodeMend.Flow

variable {F : Watch}

/-! ## Outcomes

An outcome has one state for each way to leave.  The one for the exit that was taken must be
covered; the others say nothing about the execution. -/

namespace Outcome

/-- What an outcome says about an exit.  Nothing is said about an exception. -/
def Covers (o : Outcome) (v : VariableId) (ex : Exit) (w : Prop) : Prop :=
  match ex with
  | .done _ => o.next.Covers v w
  | .broken => o.broken.Covers v w
  | .continued => o.continued.Covers v w
  | .left => o.left.Covers v w
  | .cut => True

variable {o o₁ o₂ : Outcome} {v : VariableId} {ex : Exit} {w w₁ w₂ : Prop}

theorem Covers.mono (h : o.Covers v ex w₁) (hw : w₁ → w₂) : o.Covers v ex w₂ := by
  cases ex with
  | cut => trivial
  | _ => exact Knowledge.Covers.mono h hw

theorem Covers.withJumps (h : o.Covers v ex w) (earlier : Outcome) :
    (o.withJumps earlier).Covers v ex w := by
  cases ex with
  | cut => trivial
  | done c => exact h
  | _ => exact Knowledge.Covers.join_right h _

/-- A jump out of an earlier part. -/
theorem Covers.jump (h : o.Covers v ex w) (hex : ex.isDone = false) (later : Outcome) :
    (later.withJumps o).Covers v ex w := by
  cases ex with
  | cut => trivial
  | done c => cases hex
  | _ => exact Knowledge.Covers.join_left h _

theorem Covers.join_left (h : o₁.Covers v ex w) (o₂ : Outcome) : (o₁.join o₂).Covers v ex w := by
  cases ex with
  | cut => trivial
  | _ => exact Knowledge.Covers.join_left h _

theorem Covers.join_right (h : o₂.Covers v ex w) (o₁ : Outcome) : (o₁.join o₂).Covers v ex w := by
  cases ex with
  | cut => trivial
  | _ => exact Knowledge.Covers.join_right h _

/-- An end, or an exception, of a part with nothing but an end. -/
theorem covers_of_next (hex : ex.isDone ∨ ex = .cut) (h : ∀ c, ex = .done c → o.next.Covers v w) :
    o.Covers v ex w := by
  rcases hex with hdone | rfl
  · cases ex with
    | done c => exact h c rfl
    | _ => cases hdone
  · trivial

end Outcome

/-- How a loop is left by a round that ends with an exit.  A round that comes to its end does not
leave the loop; what follows may be cut short. -/
def Exit.outOfRound : Exit → Exit
  | .broken => .done true
  | .left => .left
  | _ => .cut

namespace Stmt

/-! ## Early reads

The reads that a form finds early are those of its parts, in order. -/

section EarlyReads

variable (e : Expr) (a b : Stmt) (k : Knowledge)

theorem early_branch : (branch e a b).early k =
    e.early .test k ++ a.early (e.tested k).whenTrue ++ b.early (e.tested k).whenFalse := rfl

theorem early_doLoop : (doLoop a e).early k =
    a.early k ++ e.early .test (a.outcome k).roundEnd := rfl

theorem early_forLoop (test : Option Expr) : (forLoop test a e).early k =
    (test.map fun e => e.early .test k).getD [] ++ a.early (splitTest test k).whenTrue ++
      e.early .value (a.outcome (splitTest test k).whenTrue).roundEnd := rfl

theorem early_cleanup : (cleanup a b).early k = a.early k ++ b.early k := rfl

end EarlyReads

/-- The form of a statement accounts for a trace and an exit. -/
structure Accounts (F : Watch) (s : Stmt) (tr : Trace) (ex : Exit) : Prop where
  known : ∀ {k w}, k.Covers F.v w → (s.outcome k).Covers F.v ex (w ∨ F.Credits tr)
  early : F.noticed → ∀ {k w}, k.Covers F.v w → ¬ w → ReadsFirst F.v tr → F.v ∈ s.early k

namespace Accounts

variable {s a b body : Stmt} {e : Expr} {tr t₁ t₂ : Trace} {ex ex' : Exit} {c : Bool}

theorem cut : Accounts F s [] .cut where
  known _ := trivial
  early _ _ _ _ _ h := absurd h not_readsFirst_nil

theorem toCut (h : Accounts F s tr ex) : Accounts F s tr .cut where
  known _ := trivial
  early := h.early

/-- A statement has no value. -/
theorem anyValue (h : Accounts F s tr (.done c)) (c' : Bool) : Accounts F s tr (.done c') where
  known := h.known
  early := h.early

/-- Nothing more happens at the end of a statement. -/
theorem toEnd (h : Accounts F s tr ex) (c : Bool) :
    Accounts F s (tr ++ ex.emits []) (ex.andThen (.done c)) := by
  rw [Exit.append_emits_nil]
  cases ex with
  | done c' => exact h.anyValue c
  | _ => exact h

/-! ### Traces one after the other

What one form knows at its end is where the next one begins. -/

/-- A form that goes on as another one does. -/
theorem carry (h : Accounts F a tr ex)
    (hknown : ∀ {k w}, (a.outcome k).Covers F.v ex w → (s.outcome k).Covers F.v ex' w)
    (hearly : ∀ k, a.early k ⊆ s.early k) : Accounts F s tr ex' where
  known hk := hknown (h.known hk)
  early hn {k _} hk hw hread := hearly k (h.early hn hk hw hread)

/-- **Once more.**  What was gone through and came back to where it began. -/
theorem again (hround : Accounts F s t₁ .cut) (h : Accounts F s t₂ ex) :
    Accounts F s (t₁ ++ t₂) ex where
  known {k w} hk := by
    refine (h.known hk).mono fun hw => ?_
    rw [Watch.credits_append]
    exact hw.imp_right Or.inr
  early hn {k w} hk hw hread := by
    rcases readsFirst_append hread with hread | ⟨-, hread⟩
    · exact hround.early hn hk hw hread
    · exact h.early hn hk hw hread

/-- A part of a form behind another part: `r` is the point between them. -/
theorem behind {r : Knowledge → Knowledge} (hb : Accounts F b t₂ ex)
    (hreach : ∀ {k w}, k.Covers F.v w → (r k).Covers F.v (w ∨ F.Credits t₁))
    (hfirst : F.noticed → ∀ {k w}, k.Covers F.v w → ¬ w → ReadsFirst F.v t₁ → F.v ∈ s.early k)
    (hknown : ∀ {k w}, (b.outcome (r k)).Covers F.v ex w → (s.outcome k).Covers F.v ex' w)
    (hearly : ∀ k, b.early (r k) ⊆ s.early k) : Accounts F s (t₁ ++ t₂) ex' where
  known {k w} hk := by
    refine hknown ((hb.known (hreach hk)).mono ?_)
    rw [Watch.credits_append, or_assoc]
    exact id
  early hn {k w} hk hw hread := by
    rcases readsFirst_append hread with hread | ⟨huntouched, hread⟩
    · exact hfirst hn hk hw hread
    · refine hearly k (hb.early hn (hreach hk) ?_ hread)
      exact fun h => h.elim hw huntouched.not_credits

/-! ### Statements without parts

Statements without parts only leave. -/

theorem skip : Accounts F .skip [] (.done c) where
  known hk := Knowledge.Covers.mono hk Or.inl
  early _ _ _ _ _ h := absurd h not_readsFirst_nil

theorem declare (u : VariableId) : Accounts F (.declare u) [.write u] (.done c) where
  known hk := by
    refine Knowledge.Covers.mono (hk.assign u) fun hw => hw.imp_right fun hu => ?_
    exact Or.inl (by simp [hu])
  early _ _ _ _ _ h := by
    have hmem := h.mem
    simp at hmem

theorem leaveLoop : Accounts F .leaveLoop [] .broken where
  known hk := Knowledge.Covers.mono hk Or.inl
  early _ _ _ _ _ h := absurd h not_readsFirst_nil

theorem nextRound : Accounts F .nextRound [] .continued where
  known hk := Knowledge.Covers.mono hk Or.inl
  early _ _ _ _ _ h := absurd h not_readsFirst_nil

end Accounts

end Stmt

/-! ### Statements with an expression

Behind an expression a statement goes on from the way that was taken. -/

namespace Expr.Accounts

variable {e : Expr} {tr : Trace} {ex : Exit}

/-- What is known behind the value of an expression that owes nothing. -/
theorem afterValue (h : Expr.Accounts F False .value e tr ex) {c : Bool} (hex : ex = .done c)
    {k : Knowledge} {w : Prop} (hk : k.Covers F.v w) :
    (e.after k).Covers F.v (w ∨ F.Credits tr) := by
  subst hex
  exact (h.after hk).mono fun hw => hw.imp_right fun h => h.resolve_right id

/-- What is known behind a condition that owes nothing. -/
theorem afterTest (h : Expr.Accounts F False .test e tr ex) {c : Bool} (hex : ex = .done c)
    {k : Knowledge} {w : Prop} (hk : k.Covers F.v w) :
    ((e.tested k).side c).Covers F.v (w ∨ F.Credits tr) :=
  (h.known hk hex).mono fun hw => hw.imp_right fun h => h.resolve_right id

theorem eval (h : Expr.Accounts F False .value e tr ex) : Stmt.Accounts F (.eval e) tr ex where
  known hk := Outcome.covers_of_next h.exits fun _ hex => h.afterValue hex hk
  early := h.early

theorem leave (h : Expr.Accounts F False .value e tr ex) :
    Stmt.Accounts F (.leave e) tr (ex.andThen .left) where
  known hk := by
    rcases h.exits with hdone | rfl
    · cases ex with
      | done c => exact h.afterValue rfl hk
      | _ => cases hdone
    · trivial
  early := h.early

theorem raise (h : Expr.Accounts F False .value e tr ex) :
    Stmt.Accounts F (.throwing e) tr .cut where
  known _ := trivial
  early := h.early

end Expr.Accounts

namespace Stmt.Accounts

variable {s a b body final : Stmt} {e : Expr} {tr t₁ t₂ : Trace} {ex ex' : Exit} {c : Bool}

/-! ### Statements one after the other, and ways apart

Where ways part, the form is covered by the one that was taken. -/

theorem seq (ha : Accounts F a t₁ (.done c)) (hb : Accounts F b t₂ ex) :
    Accounts F (.seq a b) (t₁ ++ t₂) ex :=
  hb.behind (fun hk => ha.known hk)
    (fun hn _ _ hk hw hread => List.mem_append_left _ (ha.early hn hk hw hread))
    (fun h => h.withJumps _) fun _ => List.subset_append_right _ _

/-- The first statement is not at its end, and the second one is not begun. -/
theorem seqStop (h : Accounts F a tr ex) (hex : ex.isDone = false) :
    Accounts F (.seq a b) tr ex :=
  h.carry (fun h => h.jump hex _) fun _ => List.subset_append_left _ _

/-- The test of a branch is cut short. -/
theorem branchStop (h : Expr.Accounts F False .test e tr ex) :
    Accounts F (.branch e a b) tr .cut where
  known _ := trivial
  early hn {k w} hk hw hread := by
    rw [early_branch, List.append_assoc]
    exact List.mem_append_left _ (h.early hn hk hw hread)

theorem branchTrue (he : Expr.Accounts F False .test e t₁ (.done true)) (ha : Accounts F a t₂ ex) :
    Accounts F (.branch e a b) (t₁ ++ t₂) ex :=
  ha.behind (fun hk => he.afterTest rfl hk)
    (fun hn _ _ hk hw hread => (branchStop he).early hn hk hw hread)
    (fun h => h.join_left _) fun k u hu => by
      simp only [Split.side_true] at hu
      simp [early_branch, hu]

theorem branchFalse (he : Expr.Accounts F False .test e t₁ (.done false))
    (hb : Accounts F b t₂ ex) : Accounts F (.branch e a b) (t₁ ++ t₂) ex :=
  hb.behind (fun hk => he.afterTest rfl hk)
    (fun hn _ _ hk hw hread => (branchStop he).early hn hk hw hread)
    (fun h => h.join_right _) fun k u hu => by
      simp only [Split.side_false] at hu
      simp [early_branch, hu]

theorem chooseLeft (h : Accounts F a tr ex) : Accounts F (.choose a b) tr ex :=
  h.carry (fun h => h.join_left _) fun _ => List.subset_append_left _ _

theorem chooseRight (h : Accounts F b tr ex) : Accounts F (.choose a b) tr ex :=
  h.carry (fun h => h.join_right _) fun _ => List.subset_append_right _ _

/-- One of the given ways accounts for what was gone through, or the last one does. -/
theorem chooseFrom {last : Stmt} {ways : List Stmt} (hs : s ∈ ways ∨ s = last)
    (h : Accounts F s tr ex) : Accounts F (.chooseFrom last ways) tr ex := by
  induction ways with
  | nil =>
    obtain rfl := hs.resolve_left (by simp)
    exact h
  | cons first ways ih =>
    rcases hs with hs | rfl
    · rcases List.mem_cons.mp hs with rfl | hs
      · exact h.chooseLeft
      · exact (ih (Or.inl hs)).chooseRight
    · exact (ih (Or.inr rfl)).chooseRight

/-! ### Loops

A loop is left by its test or by a jump, and what is known at its end is known on all of these ways.
-/

/-- A loop that begins with a test, and the test does not hold. -/
theorem whileEnd (h : Expr.Accounts F False .test e tr ex) (hc : ∀ c, ex = .done c → c = false) :
    Accounts F (.whileLoop e body) tr ex where
  known hk := Outcome.covers_of_next h.exits fun c hex => by
    obtain rfl := hc c hex
    exact (h.afterTest hex hk).join_left _
  early hn {k w} hk hw hread := List.mem_append_left _ (h.early hn hk hw hread)

/-- What a loop knows behind a round is what its body knows where it leaves the loop. -/
theorem covers_ofLoop {o : Outcome} {k : Knowledge} {v : VariableId} {w : Prop}
    (h : o.Covers v ex w) : (Outcome.ofLoop o k).Covers v ex.outOfRound w := by
  cases ex with
  | broken => exact Knowledge.Covers.join_right h _
  | left => exact h
  | _ => trivial

theorem whileRound (he : Expr.Accounts F False .test e t₁ (.done true))
    (h : Accounts F body t₂ ex) : Accounts F (.whileLoop e body) (t₁ ++ t₂) ex.outOfRound :=
  h.behind (fun hk => he.afterTest rfl hk)
    (fun hn _ _ hk hw hread => List.mem_append_left _ (he.early hn hk hw hread))
    covers_ofLoop fun _ => List.subset_append_right _ _

theorem doRound (h : Accounts F body tr ex) : Accounts F (.doLoop body e) tr ex.outOfRound :=
  h.carry covers_ofLoop fun _ => List.subset_append_left _ _

/-- What is known where a round of a loop ends. -/
theorem roundEnd (h : Accounts F body tr ex) (hex : ex.afterRound = .done c) {k : Knowledge}
    {w : Prop} (hk : k.Covers F.v w) :
    (body.outcome k).roundEnd.Covers F.v (w ∨ F.Credits tr) := by
  have hknown := h.known hk
  cases ex with
  | done c => exact Knowledge.Covers.join_right hknown _
  | continued => exact Knowledge.Covers.join_left hknown _
  | _ => cases hex

theorem doEnd (h : Accounts F body t₁ ex') (hex : ex'.afterRound = .done c)
    (he : Expr.Accounts F False .test e t₂ ex) (hc : ∀ c, ex = .done c → c = false) :
    Accounts F (.doLoop body e) (t₁ ++ t₂) ex where
  known {k w} hk := Outcome.covers_of_next he.exits fun c hdone => by
    obtain rfl := hc c hdone
    refine Knowledge.Covers.join_left ((he.afterTest hdone (h.roundEnd hex hk)).mono ?_) _
    rw [Watch.credits_append, or_assoc]
    exact id
  early hn {k w} hk hw hread := by
    rw [early_doLoop, List.mem_append]
    rcases readsFirst_append hread with hread | ⟨huntouched, hread⟩
    · exact Or.inl (h.early hn hk hw hread)
    · refine Or.inr (he.early hn (h.roundEnd hex hk) ?_ hread)
      exact fun h => h.elim hw huntouched.not_credits

/-- A for loop whose test does not hold. -/
theorem forEnd {step : Expr} (h : Expr.Accounts F False .test e tr ex)
    (hc : ∀ c, ex = .done c → c = false) : Accounts F (.forLoop (some e) body step) tr ex where
  known hk := Outcome.covers_of_next h.exits fun c hex => by
    obtain rfl := hc c hex
    exact (h.afterTest hex hk).join_left _
  early hn {k w} hk hw hread := by
    rw [early_forLoop, List.append_assoc]
    exact List.mem_append_left _ (h.early hn hk hw hread)

/-- The test of a for loop holds, or there is none. -/
def TestHolds (F : Watch) (test : Option Expr) (tr : Trace) : Prop :=
  match test with
  | some e => Expr.Accounts F False .test e tr (.done true)
  | none => tr = []

theorem TestHolds.after {test : Option Expr} (h : TestHolds F test tr) {k : Knowledge} {w : Prop}
    (hk : k.Covers F.v w) : (splitTest test k).whenTrue.Covers F.v (w ∨ F.Credits tr) := by
  cases test with
  | none => exact hk.mono Or.inl
  | some e => exact Expr.Accounts.afterTest h rfl hk

theorem TestHolds.early {test : Option Expr} (h : TestHolds F test tr) (hn : F.noticed)
    {k : Knowledge} {w : Prop} (hk : k.Covers F.v w) (hw : ¬ w) (hread : ReadsFirst F.v tr) :
    F.v ∈ (test.map fun e => e.early .test k).getD [] := by
  cases test with
  | none =>
    subst h
    exact absurd hread not_readsFirst_nil
  | some e => exact Expr.Accounts.early h hn hk hw hread

theorem forRound {test : Option Expr} {step : Expr} (ht : TestHolds F test t₁)
    (h : Accounts F body t₂ ex) : Accounts F (.forLoop test body step) (t₁ ++ t₂) ex.outOfRound :=
  h.behind ht.after
    (fun hn _ _ hk hw hread => by
      rw [early_forLoop, List.append_assoc]
      exact List.mem_append_left _ (ht.early hn hk hw hread))
    covers_ofLoop fun k u hu => by
      simp [early_forLoop, hu]

/-- The step of a for loop, behind a round that came to its end. -/
theorem forStep {test : Option Expr} {step : Expr} (ht : TestHolds F test t₁)
    (h : Accounts F body t₂ ex') (hex : ex'.afterRound = .done c) {t₃ : Trace}
    (hstep : Expr.Accounts F False .value step t₃ ex) :
    Accounts F (.forLoop test body step) (t₁ ++ t₂ ++ t₃) .cut where
  known _ := trivial
  early hn {k w} hk hw hread := by
    rcases readsFirst_append hread with hread | ⟨huntouched, hread⟩
    · exact (forRound ht h).early hn hk hw hread
    · have hend := h.roundEnd hex (ht.after hk)
      rw [early_forLoop, List.mem_append]
      refine Or.inr (hstep.early hn hend ?_ hread)
      rw [or_assoc, ← Watch.credits_append]
      exact fun h => h.elim hw huntouched.not_credits

theorem forEachEnd {u : Option VariableId} : Accounts F (.forEach u body) [] (.done c) where
  known hk := Knowledge.Covers.join_left (hk.mono Or.inl) _
  early _ _ _ _ _ h := absurd h not_readsFirst_nil

theorem forEachRound {u : Option VariableId} (h : Accounts F body tr ex) :
    Accounts F (.forEach u body) (u.toList.map .write ++ tr) ex.outOfRound :=
  h.behind (r := beginRound u)
    (fun hk => (hk.assignAll u.toList).mono fun hw =>
      hw.imp_right fun hu => Or.inl (by simpa using hu))
    (fun _ _ _ _ _ hread => by
      have hmem := hread.mem
      simp at hmem)
    covers_ofLoop fun _ => List.Subset.refl _

/-! ### Exceptions

Handlers begin with what was known in front of the body, for they may be entered from anywhere in
it. -/

theorem attempt (h : Accounts F body tr ex) : Accounts F (.attempt body a) tr ex :=
  h.carry (fun h => h.join_left _) fun _ => List.subset_append_left _ _

/-- The body is cut short, and what follows begins with what was known in front. -/
theorem handled (hbody : Accounts F body t₁ .cut) (h : Accounts F a t₂ ex) :
    Accounts F (.attempt body a) (t₁ ++ t₂) ex :=
  hbody.attempt.again (h.carry (fun h => h.join_right _) fun _ => List.subset_append_right _ _)

/-- However the body is left, the last block runs; what either of them wrote is written. -/
theorem cleanup (hbody : Accounts F body t₁ ex) (hfinal : Accounts F final t₂ ex') :
    Accounts F (.cleanup body final) (t₁ ++ t₂) (ex'.andThen ex) where
  known {k w} hk := by
    have hb : (body.outcome k).Covers F.v ex (w ∨ F.Credits (t₁ ++ t₂)) := by
      rw [Watch.credits_append]
      exact (hbody.known hk).mono fun hw => hw.imp_right Or.inl
    have hf : (final.outcome k).Covers F.v ex' (w ∨ F.Credits (t₁ ++ t₂)) := by
      rw [Watch.credits_append]
      exact (hfinal.known hk).mono fun hw => hw.imp_right Or.inr
    cases ex' with
    | done c =>
      cases ex with
      | done c' => exact Knowledge.Covers.both hb hf
      | cut => trivial
      | _ => exact Knowledge.Covers.join_left hb _
    | cut => trivial
    | _ => exact Knowledge.Covers.join_right hf _
  early hn {k w} hk hw hread := by
    rw [early_cleanup, List.mem_append]
    rcases readsFirst_append hread with hread | ⟨-, hread⟩
    · exact Or.inl (hbody.early hn hk hw hread)
    · exact Or.inr (hfinal.early hn hk hw hread)

/-! ### Sections of a switch

The analysis takes all labels of a section in order, although only one of them leads into it. -/

theorem switch (h : Accounts F s tr ex) : Accounts F (.switch s) tr ex.afterBreak :=
  h.carry
    (fun {k w} h => by
      cases ex with
      | done c => exact Knowledge.Covers.join_left h _
      | broken => exact Knowledge.Covers.join_right h _
      | cut => trivial
      | _ => exact h)
    fun _ => List.Subset.refl _

/-- The labels of a section teach nothing about the variable: there is only one of them, or none of
them writes it or is never got behind. -/
def Unprejudiced (v : VariableId) (labels : List Expr) : Prop :=
  labels.length ≤ 1 ∨
    ∀ e ∈ labels, v ∉ e.written ∧ (e.after (.reachable [])).isReachable = true

theorem covers_afterLabels {v : VariableId} {labels : List Expr} {k : Knowledge} {w : Prop}
    (hk : k.Covers v w)
    (h : ∀ e ∈ labels, v ∉ e.written ∧ (e.after (.reachable [])).isReachable = true) :
    (afterLabels labels k).Covers v w := by
  induction labels generalizing k with
  | nil => exact hk
  | cons e labels ih =>
    obtain ⟨hv, hreach⟩ := h e List.mem_cons_self
    exact ih (Expr.covers_after hk hv hreach) fun e he => h e (List.mem_cons_of_mem _ he)

/-- A label that is tried reads what it reads, whichever label of its section it is. -/
theorem mem_earlyInLabels {labels : List Expr} (hlabels : Unprejudiced F.v labels) {l : Expr}
    (hl : l ∈ labels) (h : Expr.Accounts F False .value l tr ex) (hn : F.noticed) {k : Knowledge}
    {w : Prop} (hk : k.Covers F.v w) (hw : ¬ w) (hread : ReadsFirst F.v tr) :
    F.v ∈ earlyInLabels labels k := by
  induction labels generalizing k with
  | nil => cases hl
  | cons e labels ih =>
    rw [earlyInLabels, List.mem_append]
    rcases List.mem_cons.mp hl with rfl | hl
    · exact Or.inl (h.early hn hk hw hread)
    · have hall := hlabels.resolve_left (by
        have := List.length_pos_of_mem hl
        simp only [List.length_cons]
        omega)
      obtain ⟨hv, hreach⟩ := hall e List.mem_cons_self
      refine Or.inr (ih (Or.inr fun e he => ?_) hl (Expr.covers_after hk hv hreach))
      exact hall e (List.mem_cons_of_mem _ he)

/-- A label that is tried in vain. -/
theorem tried {labels : List Expr} (hlabels : Unprejudiced F.v labels) {l : Expr} (hl : l ∈ labels)
    (h : Expr.Accounts F False .value l tr ex) : Accounts F (.labelled labels body) tr .cut where
  known _ := trivial
  early hn {_ _} hk hw hread :=
    List.mem_append_left _ (mem_earlyInLabels hlabels hl h hn hk hw hread)

/-- **A section is entered through one of its labels.**  The analysis takes all of them in order,
and that teaches it nothing about the variable. -/
theorem chosen {labels : List Expr} (hlabels : Unprejudiced F.v labels) {l : Expr} (hl : l ∈ labels)
    (h : Expr.Accounts F False .value l t₁ (.done c)) (hbody : Accounts F body t₂ ex) :
    Accounts F (.labelled labels body) (t₁ ++ t₂) ex := by
  refine hbody.behind (r := afterLabels labels) (fun {k w} hk => ?_)
    (fun hn _ _ hk hw hread => (tried hlabels hl h).early hn hk hw hread)
    (fun h => h) fun _ => List.subset_append_right _ _
  rcases hlabels with hone | hall
  · obtain ⟨e, rfl⟩ := List.length_eq_one_iff.mp
      (Nat.le_antisymm hone (List.length_pos_of_mem hl))
    obtain rfl := List.mem_singleton.mp hl
    exact h.afterValue rfl hk
  · exact (covers_afterLabels hk hall).mono Or.inl

end Stmt.Accounts

end CodeMend.Flow
