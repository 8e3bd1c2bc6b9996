import Mathlib.Order.Basic
import CodeMend.Flow.Analysis

/-!
# CodeMend — one pass is enough for loops

The analysis goes through the body of a loop once, from the state in front of the loop.  A fixpoint
analysis would join that state with the states on the ways back to the head of the loop, and go
through the body again until the state at the head no longer changes.  Nothing that is known is
forgotten along a way, so the states on the ways back know all that is known in front, the join is
the state in front, and the first round is the last.

* **`Knowledge`** as an order — a state is below another when all that it knows is known there.
* **`Expr.le_split`**, **`Stmt.above_outcome`** — along a way through an expression or a statement,
  knowledge grows.
* **`settle?`** — the rounds of one loop, until its head is stable.
* **`Stmt.settled?`** — the rules of the analysis with all loops run to a fixpoint.
* **`Stmt.settled?_eq_pass`** — the fixpoint analysis of a statement is the single pass.
* **`one_pass_is_fixpoint`** — the fixpoint analysis of a body finds what the analysis finds.
-/

namespace CodeMend.Flow

/-! ## Knowledge grows

States are ordered by what they know.  A way through a statement forgets nothing, so what comes back
to the head of a loop is above what entered it, and their join is the entry. -/

deriving instance DecidableEq for Knowledge

namespace Knowledge

/-- A state is below another when all that is known there is known here; a point that no way leads
to is above all. -/
def Below : Knowledge → Knowledge → Prop
  | _, .unreachable => True
  | .unreachable, .reachable _ => False
  | .reachable vs, .reachable ws => vs ⊆ ws

instance : Preorder Knowledge where
  le := Below
  le_refl k := by
    cases k with
    | unreachable => trivial
    | reachable vs => exact List.Subset.refl vs
  le_trans a b c hab hbc := by
    cases c with
    | unreachable => cases a <;> trivial
    | reachable us =>
      cases b with
      | unreachable => exact hbc.elim
      | reachable ws =>
        cases a with
        | unreachable => exact hab.elim
        | reachable vs => exact List.Subset.trans hab hbc

variable {k k₁ k₂ : Knowledge}

@[simp]
theorem le_unreachable (k : Knowledge) : k ≤ unreachable := by cases k <;> trivial

theorem unreachable_le (h : unreachable ≤ k) : k = unreachable := by
  cases k with
  | unreachable => rfl
  | reachable vs => exact h.elim

theorem le_assign (k : Knowledge) (v : VariableId) : k ≤ k.assign v := by
  cases k with
  | unreachable => exact le_refl _
  | reachable vs =>
    unfold assign
    by_cases hv : vs.contains v
    · simp only [hv, if_true]
      exact le_refl _
    · simp only [hv, Bool.false_eq_true, if_false]
      exact List.subset_cons_self v vs

theorem le_assignAll (k : Knowledge) (vs : List VariableId) : k ≤ k.assignAll vs := by
  unfold assignAll
  induction vs generalizing k with
  | nil => exact le_refl k
  | cons v vs ih => exact le_trans (le_assign k v) (ih (k.assign v))

/-- Where two ways meet, all is known that is known on both. -/
theorem le_join (h₁ : k ≤ k₁) (h₂ : k ≤ k₂) : k ≤ k₁.join k₂ := by
  cases k₁ with
  | unreachable => exact h₂
  | reachable vs =>
    cases k₂ with
    | unreachable => exact h₁
    | reachable ws =>
      cases k with
      | unreachable => exact h₁.elim
      | reachable us =>
        intro u hu
        exact List.mem_filter.mpr ⟨h₁ hu, List.contains_iff_mem.mpr (h₂ hu)⟩

theorem le_both (h : k ≤ k₁) (k₂ : Knowledge) : k ≤ k₁.both k₂ := by
  cases k₁ with
  | unreachable => exact le_unreachable k
  | reachable vs =>
    cases k₂ with
    | unreachable => exact le_unreachable k
    | reachable ws => exact le_trans h (le_assignAll (.reachable vs) ws)

/-- **Where a way comes back that has forgotten nothing, it changes nothing.** -/
theorem join_eq_left (h : k₁ ≤ k₂) : k₁.join k₂ = k₁ := by
  cases k₁ with
  | unreachable => exact unreachable_le h
  | reachable vs =>
    cases k₂ with
    | unreachable => rfl
    | reachable ws =>
      have hall : vs.filter ws.contains = vs :=
        List.filter_eq_self.mpr fun v hv => List.contains_iff_mem.mpr (h hv)
      exact congrArg reachable hall

end Knowledge

/-- Both ways behind a condition are above a state. -/
def Split.Above (s : Split) (k : Knowledge) : Prop := k ≤ s.whenTrue ∧ k ≤ s.whenFalse

namespace Split.Above

variable {s : Split} {k k' : Knowledge}

theorem mono (h : s.Above k') (hk : k ≤ k') : s.Above k :=
  ⟨le_trans hk h.1, le_trans hk h.2⟩

theorem same (h : k ≤ k') : (Split.same k').Above k := ⟨h, h⟩

theorem settle (h : s.Above k) (use : Use) : (use.settle s).Above k := by
  cases use with
  | value => exact .same (Knowledge.le_join h.1 h.2)
  | test => exact h

end Split.Above

/-- **Along a way through an expression, knowledge grows.** -/
theorem Expr.above_split (e : Expr) (use : Use) (k : Knowledge) : (e.split use k).Above k := by
  induction e generalizing use k with
  | constant | name _ | holes _ => exact .same (le_refl k)
  | literal value =>
    cases use with
    | value => exact .same (le_refl k)
    | test =>
      cases value with
      | true => exact ⟨le_refl k, Knowledge.le_unreachable k⟩
      | false => exact ⟨Knowledge.le_unreachable k, le_refl k⟩
  | seq a b iha ihb | tuple a b iha ihb | call a b iha ihb =>
    exact .same (le_trans (iha .value k).1 (ihb .value _).1)
  | parenthesized e ih => exact ih use k
  | negation e ih => exact ⟨(ih use k).2, (ih use k).1⟩
  -- The second side is evaluated only where the first one holds.
  | conjunction a b iha ihb =>
    have hleft := iha .test k
    have hright := (ihb .test _).mono hleft.1
    refine Split.Above.settle (s := ⟨_, _⟩) ?_ use
    exact ⟨hright.1, Knowledge.le_join hleft.2 hright.2⟩
  | disjunction a b iha ihb =>
    have hleft := iha .test k
    have hright := (ihb .test _).mono hleft.2
    refine Split.Above.settle (s := ⟨_, _⟩) ?_ use
    exact ⟨Knowledge.le_join hleft.1 hright.1, hright.2⟩
  | optional a b iha ihb =>
    have hfirst := (iha .value k).1
    exact .same (Knowledge.le_join hfirst (le_trans hfirst (ihb .value _).1))
  | conditional test a b iht iha ihb =>
    have htest := iht .test k
    exact .same (Knowledge.le_join (le_trans htest.1 (iha .value _).1)
      (le_trans htest.2 (ihb .value _).1))
  | assign operands targets ih =>
    exact .same (le_trans (ih .value k).1 (Knowledge.le_assignAll _ targets))
  | passed mode e ih =>
    cases mode with
    | value | input => exact .same (ih .value k).1
    | ref => exact .same (le_trans (ih .value k).1 (Knowledge.le_assignAll _ e.targets))
    | out => exact .same (Knowledge.le_assignAll k e.targets)
  | argument mode e ih | initializer e ih => exact .same (ih .value k).1
  | declaration vs | pattern vs => exact .same (Knowledge.le_assignAll k vs)
  | throwing e ih => exact .same (Knowledge.le_unreachable k)

theorem Expr.le_after (e : Expr) (k : Knowledge) : k ≤ e.after k := (e.above_split .value k).1

theorem Expr.above_tested (e : Expr) (k : Knowledge) : (e.tested k).Above k :=
  e.above_split .test k

theorem above_splitTest (test : Option Expr) (k : Knowledge) : (splitTest test k).Above k := by
  cases test with
  | none => exact ⟨le_refl k, Knowledge.le_unreachable k⟩
  | some e => exact e.above_tested k

theorem le_afterLabels (labels : List Expr) (k : Knowledge) : k ≤ afterLabels labels k := by
  unfold afterLabels
  induction labels generalizing k with
  | nil => exact le_refl k
  | cons e labels ih => exact le_trans (e.le_after k) (ih (e.after k))

theorem le_beginRound (v : Option VariableId) (k : Knowledge) : k ≤ beginRound v k :=
  Knowledge.le_assignAll k v.toList

/-- All ways out of a statement are above a state. -/
structure Outcome.Above (o : Outcome) (k : Knowledge) : Prop where
  next : k ≤ o.next
  broken : k ≤ o.broken
  continued : k ≤ o.continued
  left : k ≤ o.left

namespace Outcome.Above

variable {o o' : Outcome} {k k' : Knowledge}

theorem mono (h : o.Above k') (hk : k ≤ k') : o.Above k :=
  ⟨le_trans hk h.next, le_trans hk h.broken, le_trans hk h.continued, le_trans hk h.left⟩

theorem withJumps (h : o.Above k) (h' : o'.Above k) : (o.withJumps o').Above k :=
  ⟨h.next, Knowledge.le_join h'.broken h.broken, Knowledge.le_join h'.continued h.continued,
    Knowledge.le_join h'.left h.left⟩

theorem join (h : o.Above k) (h' : o'.Above k) : (o.join o').Above k :=
  { h'.withJumps h with next := Knowledge.le_join h.next h'.next }

theorem roundEnd (h : o.Above k) : k ≤ o.roundEnd := Knowledge.le_join h.continued h.next

theorem ofLoop (h : o.Above k) (hk : k ≤ k') : (Outcome.ofLoop o k').Above k where
  next := Knowledge.le_join hk h.broken
  broken := Knowledge.le_unreachable k
  continued := Knowledge.le_unreachable k
  left := h.left

end Outcome.Above

/-- **Along every way through a statement, knowledge grows**, to whatever place the way leads. -/
theorem Stmt.above_outcome (s : Stmt) (k : Knowledge) : (s.outcome k).Above k := by
  induction s generalizing k with
  | skip => constructor <;> simp [outcome]
  | eval e => constructor <;> simp [outcome, e.le_after k]
  | declare v => constructor <;> simp [outcome, Knowledge.le_assign k v]
  | leave e => constructor <;> simp [outcome, e.le_after k]
  | throwing e | leaveLoop | nextRound => constructor <;> simp [outcome]
  | seq a b iha ihb => exact ((ihb _).mono (iha k).next).withJumps (iha k)
  | branch test a b iha ihb =>
    have htest := test.above_tested k
    exact ((iha _).mono htest.1).join ((ihb _).mono htest.2)
  | whileLoop test body ih =>
    have htest := test.above_tested k
    exact ((ih _).mono htest.1).ofLoop htest.2
  | doLoop body test ih =>
    exact (ih k).ofLoop ((test.above_tested _).mono (ih k).roundEnd).2
  | forLoop test body step ih =>
    have htest := above_splitTest test k
    exact ((ih _).mono htest.1).ofLoop htest.2
  | forEach v body ih => exact ((ih _).mono (le_beginRound v k)).ofLoop (le_refl k)
  | attempt a b iha ihb | choose a b iha ihb => exact (iha k).join (ihb k)
  | cleanup body final ihb ihf =>
    exact { (ihf k).withJumps (ihb k) with next := Knowledge.le_both (ihb k).next _ }
  | switch sections ih =>
    exact ⟨Knowledge.le_join (ih k).next (ih k).broken, Knowledge.le_unreachable k,
      (ih k).continued, (ih k).left⟩
  | labelled labels body ih => exact (ih _).mono (le_afterLabels labels k)

/-! ## Loops run to a fixpoint

The analysis that repeats a loop until nothing changes is written down beside the one that goes
through it once.  Since the state at the head does not change in the first round, the two find the
same. -/

/-- What the analysis finds out about a part: what is known behind it, and the variables that are
read where they may be unwritten, and that are written. -/
structure Pass where
  outcome : Outcome
  early : List VariableId
  written : List VariableId

namespace Pass

/-- What one part finds out, and then another. -/
def append (p q : Pass) (o : Outcome) : Pass := ⟨o, p.early ++ q.early, p.written ++ q.written⟩

/-- Some reads and writes in front of a part. -/
def after (early written : List VariableId) (p : Pass) (o : Outcome) : Pass :=
  ⟨o, early ++ p.early, written ++ p.written⟩

end Pass

/-- Go through the rounds of a loop until the state at its head, where the ways back meet the entry,
no longer changes.  Reads and writes of all rounds count.  There is no answer when the head still
changes in the last round allowed. -/
def settle? (round : Knowledge → Option (Pass × Knowledge)) (entry : Knowledge) :
    Nat → Knowledge → Option Pass
  | 0, _ => none
  | rounds + 1, head => do
    let (p, back) ← round head
    if entry.join back = head then return p
    else
      let q ← settle? round entry rounds (entry.join back)
      return p.append q q.outcome

/-- The fixpoint analysis of a statement: the rules are those of the single pass, but every loop is
gone through until its head is stable, in so many rounds at most. -/
def Stmt.settled? (rounds : Nat) : Stmt → Knowledge → Option Pass
  | .seq a b, k => do
    let p ← settled? rounds a k
    let q ← settled? rounds b p.outcome.next
    return p.append q (q.outcome.withJumps p.outcome)
  | .branch test a b, k => do
    let t := test.tested k
    let p ← settled? rounds a t.whenTrue
    let q ← settled? rounds b t.whenFalse
    return (p.after (test.early .test k) test.written p.outcome).append q (p.outcome.join q.outcome)
  | .whileLoop test body, k =>
    settle? (fun head => do
      let t := test.tested head
      let p ← settled? rounds body t.whenTrue
      return (p.after (test.early .test head) test.written (.ofLoop p.outcome t.whenFalse),
        p.outcome.roundEnd)) k rounds k
  | .doLoop body test, k =>
    settle? (fun head => do
      let p ← settled? rounds body head
      let t := test.tested p.outcome.roundEnd
      return (⟨.ofLoop p.outcome t.whenFalse, p.early ++ test.early .test p.outcome.roundEnd,
        p.written ++ test.written⟩, t.whenTrue)) k rounds k
  | .forLoop test body step, k =>
    settle? (fun head => do
      let t := splitTest test head
      let p ← settled? rounds body t.whenTrue
      return (⟨.ofLoop p.outcome t.whenFalse,
        ((test.map fun e => e.early .test head).getD []) ++ p.early ++
          step.early .value p.outcome.roundEnd,
        ((test.map Expr.written).getD []) ++ p.written ++ step.written⟩,
        step.after p.outcome.roundEnd)) k rounds k
  | .forEach v body, k =>
    settle? (fun head => do
      let p ← settled? rounds body (beginRound v head)
      return (p.after [] v.toList (.ofLoop p.outcome head), p.outcome.roundEnd)) k rounds k
  | .attempt a b, k | .choose a b, k => do
    let p ← settled? rounds a k
    let q ← settled? rounds b k
    return p.append q (p.outcome.join q.outcome)
  | .cleanup body final, k => do
    let p ← settled? rounds body k
    let q ← settled? rounds final k
    return p.append q
      { q.outcome.withJumps p.outcome with next := p.outcome.next.both q.outcome.next }
  | .switch sections, k => do
    let p ← settled? rounds sections k
    let o := p.outcome
    return { p with
      outcome := { next := o.next.join o.broken, continued := o.continued, left := o.left } }
  | .labelled labels body, k => do
    let p ← settled? rounds body (afterLabels labels k)
    return p.after (earlyInLabels labels k) (labels.flatMap Expr.written) p.outcome
  -- a statement without parts has no loop
  | s, k => some ⟨s.outcome k, s.early k, s.written⟩

/-- What the single pass finds out about a statement. -/
def Stmt.pass (s : Stmt) (k : Knowledge) : Pass := ⟨s.outcome k, s.early k, s.written⟩

/-- A loop whose ways back know all that is known in front of it is gone through once. -/
theorem settle?_of_le {round : Knowledge → Option (Pass × Knowledge)} {entry back : Knowledge}
    {p : Pass} (h : round entry = some (p, back)) (hback : entry ≤ back) (rounds : Nat) :
    settle? round entry (rounds + 1) entry = some p := by
  unfold settle?
  rw [h]
  simp [Knowledge.join_eq_left hback]

/-- **The fixpoint analysis of a statement is the single pass**, however many rounds it is given. -/
theorem Stmt.settled?_eq_pass (rounds : Nat) (s : Stmt) (k : Knowledge) :
    s.settled? (rounds + 1) k = some (s.pass k) := by
  induction s generalizing k with
  | skip | eval _ | declare _ | leave _ | throwing _ | leaveLoop | nextRound => rfl
  | seq a b iha ihb | branch test a b iha ihb | cleanup a b iha ihb | attempt a b iha ihb
  | choose a b iha ihb =>
    simp only [settled?, iha, ihb]
    rfl
  | switch sections ih | labelled labels body ih =>
    simp only [settled?, ih]
    rfl
  -- The state that comes back is above the one at the head, so the first round settles the loop.
  | whileLoop test body ih =>
    refine settle?_of_le (by simp only [ih]; rfl) ?_ rounds
    exact le_trans (test.above_tested k).1 (body.above_outcome _).roundEnd
  | doLoop body test ih =>
    refine settle?_of_le (by simp only [ih]; rfl) ?_ rounds
    exact le_trans (body.above_outcome k).roundEnd (test.above_tested _).1
  | forLoop test body step ih =>
    refine settle?_of_le (by simp only [ih]; rfl) ?_ rounds
    exact le_trans (le_trans (above_splitTest test k).1 (body.above_outcome _).roundEnd)
      (step.le_after _)
  | forEach v body ih =>
    refine settle?_of_le (by simp only [ih]; rfl) ?_ rounds
    exact le_trans (le_beginRound v k) (body.above_outcome _).roundEnd

end CodeMend.Flow

namespace CodeMend

/-- The data flow of a body in a region of a document, with all loops run to a fixpoint. -/
def DataFlow.settled? (rounds : Nat) (region : Span) (body : Flow.Stmt) : Option DataFlow := do
  let p ← body.settled? rounds (.reachable [])
  return {
    written := VariableId.sorted p.written
    alwaysAssigned := VariableId.sorted (p.outcome.left.join p.outcome.next).assigned
    flowsIn := VariableId.sorted (p.early.filter fun v => !region.containsOffset v.offset) }

/-- The data flow of a body, when all of its parts have a form, with all loops run to a fixpoint. -/
def Binder.settledFlow? (rounds : Nat) (b : Binder) (body : NodeId) : Option DataFlow :=
  (Flow.readBody? b body).bind (DataFlow.settled? rounds (b.tree.span body))

namespace Flow

/-- **One forward pass is enough for loops.**  For every body, the analysis that goes through each
loop again until the state at its head is stable gives the result of the single pass, and it gives
none where the single pass gives none; it needs no second round, so any positive number of rounds
will do.  The reason is that no way forgets what is known in front of it: from every state, all ways
out of every statement, and both ways behind every expression, know at least what the state knows.
So the state in front of a loop, joined with the state at the end of a round or with the one behind
a test or a step there, is the state in front of it. -/
theorem one_pass_is_fixpoint (b : Binder) (body : NodeId) (rounds : Nat) :
    b.settledFlow? (rounds + 1) body = b.dataFlow? body ∧
      (∀ (s : Stmt) (k : Knowledge), (s.outcome k).Above k) ∧
      (∀ (e : Expr) (use : Use) (k : Knowledge), (e.split use k).Above k) ∧
      ∀ (s : Stmt) (e : Expr) (use : Use) (k : Knowledge),
        k.join (s.outcome k).roundEnd = k ∧
          k.join (e.split use (s.outcome k).roundEnd).whenTrue = k := by
  refine ⟨?_, Stmt.above_outcome, Expr.above_split, fun s e use k => ?_⟩
  · unfold Binder.settledFlow? Binder.dataFlow?
    cases readBody? b body with
    | none => rfl
    | some s =>
      simp only [Option.bind_some, Option.map_some, DataFlow.settled?, Stmt.settled?_eq_pass]
      rfl
  · have hround := (s.above_outcome k).roundEnd
    exact ⟨Knowledge.join_eq_left hround,
      Knowledge.join_eq_left (le_trans hround (e.above_split use _).1)⟩

end Flow

end CodeMend
