import CodeMend.Flow.Assignment
import CodeMend.Proofs.Flow.Paths

/-!
# CodeMend — what knowledge stands for

Knowledge at a point of a body is about one variable at a time: when the point is reached and the
variable is known to be written there, then it is written.  `Knowledge.Covers v w` says so, where
`w` is what really happened.  Each operation on knowledge keeps it, and an expression learns of a
variable only by writing it.

* **`Knowledge.Covers`** — the point is reachable, and what is known of the variable holds.
* **`Expr.side_value`** — an expression that is evaluated for its value has one way behind it.
* **`Expr.covers_after`** — an expression that does not write the variable learns nothing of it.
* **`readsFirst_append`** — the first read of a variable is in the first trace, or behind it.
-/

namespace CodeMend.Flow

/-! ## Traces

Only the first event that touches the variable matters.  What is read first in two traces is settled
in the first of them, unless that one leaves the variable alone. -/

variable {v : VariableId}

/-- The variable is neither read nor written. -/
def Untouched (v : VariableId) (tr : Trace) : Prop := .read v ∉ tr ∧ .write v ∉ tr

theorem not_readsFirst_nil : ¬ ReadsFirst v [] := by
  rintro ⟨before, after, h, -⟩
  simp at h

theorem readsFirst_cons {e : Event} {tr : Trace} :
    ReadsFirst v (e :: tr) ↔ e = .read v ∨ e ≠ .write v ∧ ReadsFirst v tr := by
  constructor
  · rintro ⟨before, after, heq, hbefore⟩
    cases before with
    | nil =>
      rw [List.nil_append, List.cons.injEq] at heq
      exact Or.inl heq.1
    | cons first before =>
      rw [List.cons_append, List.cons.injEq] at heq
      obtain ⟨rfl, rfl⟩ := heq
      rw [List.mem_cons, not_or] at hbefore
      exact Or.inr ⟨fun h => hbefore.1 h.symm, before, after, rfl, hbefore.2⟩
  · rintro (rfl | ⟨hne, before, after, rfl, hbefore⟩)
    · exact ⟨[], tr, rfl, by simp⟩
    · refine ⟨e :: before, after, rfl, ?_⟩
      rw [List.mem_cons, not_or]
      exact ⟨fun h => hne h.symm, hbefore⟩

/-- **The first read.**  A variable that is read first in two traces is read first in one of them,
and it is not touched in front. -/
theorem readsFirst_append {t₁ t₂ : Trace} (h : ReadsFirst v (t₁ ++ t₂)) :
    ReadsFirst v t₁ ∨ Untouched v t₁ ∧ ReadsFirst v t₂ := by
  induction t₁ with
  | nil => exact Or.inr ⟨⟨by simp, by simp⟩, h⟩
  | cons e t₁ ih =>
    rw [List.cons_append] at h
    rcases readsFirst_cons.mp h with rfl | ⟨hwrite, h⟩
    · exact Or.inl (readsFirst_cons.mpr (Or.inl rfl))
    · by_cases hread : e = .read v
      · exact Or.inl (readsFirst_cons.mpr (Or.inl hread))
      · rcases ih h with h | ⟨⟨hr, hw⟩, h⟩
        · exact Or.inl (readsFirst_cons.mpr (Or.inr ⟨hwrite, h⟩))
        · refine Or.inr ⟨⟨?_, ?_⟩, h⟩
          · simp only [List.mem_cons, not_or]
            exact ⟨fun h => hread h.symm, hr⟩
          · simp only [List.mem_cons, not_or]
            exact ⟨fun h => hwrite h.symm, hw⟩

/-- A variable that is read first is read. -/
theorem ReadsFirst.mem {tr : Trace} (h : ReadsFirst v tr) : .read v ∈ tr := by
  obtain ⟨before, after, rfl, -⟩ := h
  simp

/-- Writes read nothing. -/
theorem Writes.not_readsFirst {vs : VariableId → Prop} {tr : Trace} (h : Writes vs tr) :
    ¬ ReadsFirst v tr := by
  intro hread
  obtain ⟨u, hu, -⟩ := (h _).mp hread.mem
  cases hu

theorem Writes.mem {vs : VariableId → Prop} {tr : Trace} (h : Writes vs tr) (hv : vs v) :
    .write v ∈ tr :=
  (h _).mpr ⟨v, rfl, hv⟩

/-! ## Knowledge

What a state knows is compared with what has been written on one way to its point: a variable that
is known there has been written on the way. -/

namespace Knowledge

/-- The point is reachable, and `w` holds when the variable is known to be written. -/
def Covers (k : Knowledge) (v : VariableId) (w : Prop) : Prop :=
  ∃ vs, k = .reachable vs ∧ (v ∈ vs → w)

variable {k k₁ k₂ : Knowledge} {w w₁ w₂ : Prop}

theorem Covers.mono (h : k.Covers v w₁) (hw : w₁ → w₂) : k.Covers v w₂ := by
  obtain ⟨vs, rfl, hvs⟩ := h
  exact ⟨vs, rfl, fun hv => hw (hvs hv)⟩

theorem covers_entry : (reachable []).Covers v w := ⟨[], rfl, by simp⟩

/-- Where nothing is written, nothing is known. -/
theorem Covers.not_knows (h : k.Covers v w) (hw : ¬ w) : k.knows v = false := by
  obtain ⟨vs, rfl, hvs⟩ := h
  have hv : v ∉ vs := fun hv => hw (hvs hv)
  simpa [knows] using hv

theorem Covers.of_assigned (h : k.Covers v w) (hv : v ∈ k.assigned) : w := by
  obtain ⟨vs, rfl, hvs⟩ := h
  exact hvs hv

theorem Covers.assign (h : k.Covers v w) (u : VariableId) : (k.assign u).Covers v (w ∨ u = v) := by
  obtain ⟨vs, rfl, hvs⟩ := h
  unfold Knowledge.assign
  by_cases hu : vs.contains u
  · simp only [hu, if_true]
    exact ⟨vs, rfl, fun hv => Or.inl (hvs hv)⟩
  · simp only [hu, Bool.false_eq_true, if_false]
    refine ⟨u :: vs, rfl, fun hv => ?_⟩
    rcases List.mem_cons.mp hv with rfl | hv
    · exact Or.inr rfl
    · exact Or.inl (hvs hv)

theorem Covers.assignAll (h : k.Covers v w) (us : List VariableId) :
    (k.assignAll us).Covers v (w ∨ v ∈ us) := by
  induction us generalizing k w with
  | nil => exact h.mono Or.inl
  | cons u us ih =>
    refine (ih (h.assign u)).mono ?_
    rintro ((hw | rfl) | hv)
    · exact Or.inl hw
    · exact Or.inr List.mem_cons_self
    · exact Or.inr (List.mem_cons_of_mem u hv)

theorem Covers.join_left (h : k₁.Covers v w) (k₂ : Knowledge) : (k₁.join k₂).Covers v w := by
  obtain ⟨vs, rfl, hvs⟩ := h
  cases k₂ with
  | unreachable => exact ⟨vs, rfl, hvs⟩
  | reachable ws => exact ⟨_, rfl, fun hv => hvs (List.mem_filter.mp hv).1⟩

theorem Covers.join_right (h : k₂.Covers v w) (k₁ : Knowledge) : (k₁.join k₂).Covers v w := by
  obtain ⟨ws, rfl, hws⟩ := h
  cases k₁ with
  | unreachable => exact ⟨ws, rfl, hws⟩
  | reachable vs =>
    refine ⟨_, rfl, fun hv => hws ?_⟩
    simpa using (List.mem_filter.mp hv).2

/-- Behind two parts that both ran, what either of them wrote is written. -/
theorem Covers.both (h₁ : k₁.Covers v w) (h₂ : k₂.Covers v w) : (k₁.both k₂).Covers v w := by
  obtain ⟨vs, rfl, hvs⟩ := h₁
  obtain ⟨ws, rfl, hws⟩ := h₂
  have h : (reachable vs).Covers v w := ⟨vs, rfl, hvs⟩
  exact (h.assignAll ws).mono fun hw => hw.elim id hws

/-! ### What is assigned, and whether a point is reached

A join of two states knows what both know, and is reached if one of them is. -/

theorem assigned_assignAll {us : List VariableId} (h : v ∈ (k.assignAll us).assigned) :
    v ∈ k.assigned ∨ v ∈ us := by
  cases k with
  | unreachable =>
    have hnone : unreachable.assignAll us = unreachable := by
      clear h
      unfold assignAll
      induction us with
      | nil => rfl
      | cons u us ih => exact ih
    rw [hnone] at h
    exact Or.inl h
  | reachable vs =>
    have hcovers : (reachable vs).Covers v (v ∈ vs) := ⟨vs, rfl, id⟩
    exact (hcovers.assignAll us).of_assigned h

theorem assigned_join (h : v ∈ (k₁.join k₂).assigned) : v ∈ k₁.assigned ∨ v ∈ k₂.assigned := by
  cases k₁ with
  | unreachable => exact Or.inr h
  | reachable vs =>
    cases k₂ with
    | unreachable => exact Or.inl h
    | reachable ws => exact Or.inl (List.mem_filter.mp h).1

/-- Some way leads to the point. -/
def isReachable : Knowledge → Bool
  | reachable _ => true
  | unreachable => false

@[simp]
theorem isReachable_assign (k : Knowledge) (u : VariableId) :
    (k.assign u).isReachable = k.isReachable := by
  unfold assign
  split
  · split <;> rfl
  · rfl

@[simp]
theorem isReachable_assignAll (k : Knowledge) (us : List VariableId) :
    (k.assignAll us).isReachable = k.isReachable := by
  unfold assignAll
  induction us generalizing k with
  | nil => rfl
  | cons u us ih =>
    rw [List.foldl_cons, ih]
    exact isReachable_assign k u

@[simp]
theorem isReachable_join (k₁ k₂ : Knowledge) :
    (k₁.join k₂).isReachable = (k₁.isReachable || k₂.isReachable) := by
  cases k₁ <;> cases k₂ <;> rfl

theorem isReachable_join_congr {k₁' k₂' : Knowledge} (h₁ : k₁.isReachable = k₁'.isReachable)
    (h₂ : k₂.isReachable = k₂'.isReachable) :
    (k₁.join k₂).isReachable = (k₁'.join k₂').isReachable := by
  rw [isReachable_join, isReachable_join, h₁, h₂]

theorem Covers.isReachable (h : k.Covers v w) : k.isReachable = true := by
  obtain ⟨vs, rfl, -⟩ := h
  rfl

theorem covers_of_isReachable (h : k.isReachable = true) (hv : v ∈ k.assigned → w) :
    k.Covers v w := by
  cases k with
  | unreachable => cases h
  | reachable vs => exact ⟨vs, rfl, hv⟩

end Knowledge

/-! ## The ways behind an expression

Behind an expression there are two ways, one for each truth value.  Whichever was taken, the
expression teaches nothing about a variable but by writing it. -/

namespace Split

/-- The way behind a condition with a value. -/
def side (s : Split) : Bool → Knowledge
  | true => s.whenTrue
  | false => s.whenFalse

@[simp]
theorem side_true (s : Split) : s.side true = s.whenTrue := rfl

@[simp]
theorem side_false (s : Split) : s.side false = s.whenFalse := rfl

@[simp]
theorem side_same (k : Knowledge) (c : Bool) : (same k).side c = k := by
  cases c <;> rfl

end Split

/-- For a value both ways behind a condition are one. -/
theorem Use.side_settle_value (s : Split) (c : Bool) : (Use.value.settle s).side c = s.join := by
  cases c <;> rfl

/-- A way behind a condition is also a way behind it when only its value is asked for. -/
theorem Use.covers_settle (use : Use) {s : Split} {c : Bool} {w : Prop}
    (h : (s.side c).Covers v w) : ((use.settle s).side c).Covers v w := by
  cases use with
  | test => exact h
  | value =>
    rw [Use.side_settle_value]
    cases c with
    | true => exact h.join_left s.whenFalse
    | false => exact h.join_right s.whenTrue

theorem Use.assigned_settle {use : Use} {s : Split} {c : Bool}
    (h : v ∈ ((use.settle s).side c).assigned) :
    v ∈ s.whenTrue.assigned ∨ v ∈ s.whenFalse.assigned := by
  cases use with
  | value =>
    rw [Use.side_settle_value] at h
    exact Knowledge.assigned_join h
  | test =>
    cases c with
    | true => exact Or.inl h
    | false => exact Or.inr h

theorem Use.isReachable_settle {use : Use} {s₁ s₂ : Split} {c : Bool}
    (htrue : s₁.whenTrue.isReachable = s₂.whenTrue.isReachable)
    (hfalse : s₁.whenFalse.isReachable = s₂.whenFalse.isReachable) :
    ((use.settle s₁).side c).isReachable = ((use.settle s₂).side c).isReachable := by
  cases use with
  | value =>
    rw [Use.side_settle_value, Use.side_settle_value]
    exact Knowledge.isReachable_join_congr htrue hfalse
  | test =>
    cases c with
    | true => exact htrue
    | false => exact hfalse

namespace Expr

/-- **One way behind a value.**  The value of an expression says nothing about the way when it is
not asked for. -/
theorem side_value (e : Expr) (k : Knowledge) (c : Bool) :
    (e.split .value k).side c = e.after k := by
  suffices h : (e.split .value k).whenFalse = (e.split .value k).whenTrue by
    cases c with
    | true => rfl
    | false => exact h
  induction e generalizing k with
  | parenthesized e ih => exact ih k
  | negation e ih => exact (ih k).symm
  | passed mode e ih => cases mode <;> rfl
  | _ => rfl

/-- What is assigned behind a way out of an expression was assigned in front, or is written in
it. -/
theorem assigned_split (e : Expr) {use : Use} {k : Knowledge} {c : Bool}
    (h : v ∈ ((e.split use k).side c).assigned) : v ∈ k.assigned ∨ v ∈ e.written := by
  induction e generalizing use k c with
  | constant | name _ | holes _ =>
    rw [split, Split.side_same] at h
    exact Or.inl h
  | literal value => cases use <;> cases value <;> cases c <;> first | exact Or.inl h | cases h
  | seq a b iha ihb | tuple a b iha ihb | call a b iha ihb =>
    rw [split, Split.side_same] at h
    rw [written, List.mem_append]
    rcases ihb (c := true) h with h | h
    · exact (iha (c := true) h).imp_right Or.inl
    · exact Or.inr (Or.inr h)
  | parenthesized e ih => exact ih h
  | negation e ih =>
    cases c with
    | true => exact ih (c := false) h
    | false => exact ih (c := true) h
  -- Where the sides are told apart, the way behind the second is known to have passed the first.
  | conjunction a b iha ihb =>
    rw [written, List.mem_append]
    rcases Use.assigned_settle h with h | h
    · rcases ihb (c := true) h with h | h
      · exact (iha (c := true) h).imp_right Or.inl
      · exact Or.inr (Or.inr h)
    · rcases Knowledge.assigned_join h with h | h
      · exact (iha (c := false) h).imp_right Or.inl
      · rcases ihb (c := false) h with h | h
        · exact (iha (c := true) h).imp_right Or.inl
        · exact Or.inr (Or.inr h)
  | disjunction a b iha ihb =>
    rw [written, List.mem_append]
    rcases Use.assigned_settle h with h | h
    · rcases Knowledge.assigned_join h with h | h
      · exact (iha (c := true) h).imp_right Or.inl
      · rcases ihb (c := true) h with h | h
        · exact (iha (c := false) h).imp_right Or.inl
        · exact Or.inr (Or.inr h)
    · rcases ihb (c := false) h with h | h
      · exact (iha (c := false) h).imp_right Or.inl
      · exact Or.inr (Or.inr h)
  | optional a b iha ihb =>
    rw [split, Split.side_same] at h
    rw [written, List.mem_append]
    rcases Knowledge.assigned_join h with h | h
    · exact (iha (c := true) h).imp_right Or.inl
    · rcases ihb (c := true) h with h | h
      · exact (iha (c := true) h).imp_right Or.inl
      · exact Or.inr (Or.inr h)
  | conditional test a b iht iha ihb =>
    rw [split, Split.side_same] at h
    rw [written, List.mem_append, List.mem_append]
    rcases Knowledge.assigned_join h with h | h
    · rcases iha (c := true) h with h | h
      · exact (iht (c := true) h).imp_right fun h => Or.inl (Or.inl h)
      · exact Or.inr (Or.inl (Or.inr h))
    · rcases ihb (c := true) h with h | h
      · exact (iht (c := false) h).imp_right fun h => Or.inl (Or.inl h)
      · exact Or.inr (Or.inr h)
  | assign operands targets ih =>
    rw [split, Split.side_same] at h
    rw [written, List.mem_append]
    rcases Knowledge.assigned_assignAll h with h | h
    · exact (ih (c := true) h).imp_right Or.inl
    · exact Or.inr (Or.inr h)
  -- What is given out is not evaluated: only its places are written.
  | passed mode e ih =>
    cases mode with
    | value | input =>
      rw [split, Split.side_same] at h
      · exact ih (c := true) h
      all_goals simp
    | ref =>
      rw [split, Split.side_same] at h
      rw [written, List.mem_append]
      rcases Knowledge.assigned_assignAll h with h | h
      · exact (ih (c := true) h).imp_right Or.inl
      · exact Or.inr (Or.inr h)
    | out =>
      rw [split, Split.side_same] at h
      exact Knowledge.assigned_assignAll h
  | argument mode e ih | initializer e ih =>
    rw [split, Split.side_same] at h
    exact ih (c := true) h
  | declaration vs | pattern vs =>
    rw [split, Split.side_same] at h
    exact Knowledge.assigned_assignAll h
  | throwing e ih =>
    rw [split, Split.side_same] at h
    cases h

/-- Whether a way out of an expression is reached does not depend on what is known in front. -/
theorem isReachable_split (e : Expr) {u : Use} {k₁ k₂ : Knowledge} {c : Bool}
    (hk : k₁.isReachable = k₂.isReachable) :
    ((e.split u k₁).side c).isReachable = ((e.split u k₂).side c).isReachable := by
  induction e generalizing u k₁ k₂ c with
  | constant | name _ | holes _ => simpa [split] using hk
  | literal value => cases u <;> cases value <;> cases c <;> first | exact hk | rfl
  | seq a b iha ihb | tuple a b iha ihb | call a b iha ihb =>
    simp only [split, Split.side_same]
    exact ihb (c := true) (iha (c := true) hk)
  | parenthesized e ih => exact ih hk
  | negation e ih =>
    cases c with
    | true => exact ih (c := false) hk
    | false => exact ih (c := true) hk
  | conjunction a b iha ihb =>
    have hleft := iha (u := .test) (c := false) hk
    have hright := fun c => ihb (u := .test) (c := c) (iha (u := .test) (c := true) hk)
    apply Use.isReachable_settle
    · exact hright true
    · exact Knowledge.isReachable_join_congr hleft (hright false)
  | disjunction a b iha ihb =>
    have hleft := iha (u := .test) (c := true) hk
    have hright := fun c => ihb (u := .test) (c := c) (iha (u := .test) (c := false) hk)
    apply Use.isReachable_settle
    · exact Knowledge.isReachable_join_congr hleft (hright true)
    · exact hright false
  | optional a b iha ihb =>
    have ha := iha (u := .value) (c := true) hk
    simp only [split, Split.side_same]
    exact Knowledge.isReachable_join_congr ha (ihb (c := true) ha)
  | conditional test a b iht iha ihb =>
    have ht := fun c => iht (u := .test) (c := c) hk
    simp only [split, Split.side_same]
    exact Knowledge.isReachable_join_congr (iha (c := true) (ht true)) (ihb (c := true) (ht false))
  | assign operands targets ih =>
    simp only [split, Split.side_same, Knowledge.isReachable_assignAll]
    exact ih (c := true) hk
  | passed mode e ih =>
    cases mode with
    | value | input => simpa [split] using ih (u := .value) (c := true) hk
    | ref => simpa [split] using ih (u := .value) (c := true) hk
    | out => simpa [split] using hk
  | argument mode e ih | initializer e ih =>
    simp only [split, Split.side_same]
    exact ih (c := true) hk
  | declaration vs | pattern vs => simpa [split] using hk
  | throwing e ih => simp [split]

/-- **An expression learns of a variable only by writing it.**  The condition on `e` is that some
way leads behind it. -/
theorem covers_after {e : Expr} {k : Knowledge} {w : Prop} (h : k.Covers v w)
    (hv : v ∉ e.written) (hreach : (e.after (.reachable [])).isReachable = true) :
    (e.after k).Covers v w := by
  rw [← e.side_value k true]
  refine Knowledge.covers_of_isReachable ?_ fun hassigned => ?_
  · have hk : k.isReachable = (Knowledge.reachable []).isReachable := h.isReachable
    rw [e.isReachable_split hk, side_value]
    exact hreach
  · rcases assigned_split e hassigned with hk | hwritten
    · exact h.of_assigned hk
    · exact absurd hwritten hv

end Expr

end CodeMend.Flow
