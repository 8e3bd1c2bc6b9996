import CodeMend.Flow.Body

/-!
# CodeMend — definite assignment

One walk over a body finds the variables that are certainly written at each of its points.  Loops
need no second round: what is written only grows along a way, so the state at the head of a loop is
the state in front of it.

* **`Knowledge`** — the variables written on every way to a point.
* **`Expr.split`**, **`Stmt.outcome`** — the knowledge behind an expression or a statement.
* **`Expr.early`**, **`Stmt.early`** — the variables read where they may be unwritten.
-/

namespace CodeMend.Flow

/-- What is known at a point of a body. -/
inductive Knowledge where
  /-- The variables that are written on every way to the point. -/
  | reachable (assigned : List VariableId)
  /-- No way leads to the point. -/
  | unreachable
deriving Repr, Inhabited

namespace Knowledge

/-- The variable is written on every way to the point. -/
def knows : Knowledge → VariableId → Bool
  | .reachable vs, v => vs.contains v
  | .unreachable, _ => true

/-- The knowledge after a variable was written. -/
def assign (k : Knowledge) (v : VariableId) : Knowledge :=
  match k with
  | .reachable vs => if vs.contains v then k else .reachable (v :: vs)
  | .unreachable => .unreachable

def assignAll (k : Knowledge) (vs : List VariableId) : Knowledge := vs.foldl assign k

/-- What is known where two ways meet. -/
def join : Knowledge → Knowledge → Knowledge
  | .unreachable, k => k
  | k, .unreachable => k
  | .reachable vs, .reachable ws => .reachable (vs.filter ws.contains)

/-- What is known after two parts that both ran. -/
def both : Knowledge → Knowledge → Knowledge
  | .reachable vs, .reachable ws => (reachable vs).assignAll ws
  | _, _ => .unreachable

/-- The variables that are known to be written; none where no way leads. -/
def assigned : Knowledge → List VariableId
  | .reachable vs => vs
  | .unreachable => []

end Knowledge

/-- What is known behind an expression, by its value if it is asked for. -/
structure Split where
  whenTrue : Knowledge
  whenFalse : Knowledge
deriving Repr, Inhabited

namespace Split

/-- The value says nothing about the way. -/
def same (k : Knowledge) : Split := ⟨k, k⟩

/-- What is known when the value does not matter. -/
def join (s : Split) : Knowledge := s.whenTrue.join s.whenFalse

end Split

/-- What an expression is evaluated for. -/
inductive Use where
  /-- For its value; the ways of both truth values are one. -/
  | value
  /-- As a condition: its truth value decides the way. -/
  | test
deriving DecidableEq, Repr

/-- The ways behind a condition, which are one when only its value is asked for. -/
def Use.settle : Use → Split → Split
  | .value, s => .same s.join
  | .test, s => s

namespace Expr

/-- What is known behind an expression.  For a value both ways are the same. -/
def split (use : Use) : Expr → Knowledge → Split
  | .constant, k => .same k
  | .literal b, k =>
    match use, b with
    | .value, _ => .same k
    | .test, true => ⟨k, .unreachable⟩
    | .test, false => ⟨.unreachable, k⟩
  | .name _, k => .same k
  | .holes _, k => .same k
  | .seq a b, k => .same (split .value b (split .value a k).whenTrue).whenTrue
  | .parenthesized e, k => split use e k
  | .negation e, k =>
    let s := split use e k
    ⟨s.whenFalse, s.whenTrue⟩
  | .conjunction a b, k =>
    -- The right side is evaluated on one way only; on the other one the left side has decided.
    let l := split .test a k
    let r := split .test b l.whenTrue
    use.settle ⟨r.whenTrue, l.whenFalse.join r.whenFalse⟩
  | .disjunction a b, k =>
    let l := split .test a k
    let r := split .test b l.whenFalse
    use.settle ⟨l.whenTrue.join r.whenTrue, r.whenFalse⟩
  | .optional a b, k =>
    let after := (split .value a k).whenTrue
    .same (after.join (split .value b after).whenTrue)
  | .conditional test a b, k =>
    let t := split .test test k
    .same ((split .value a t.whenTrue).whenTrue.join (split .value b t.whenFalse).whenTrue)
  | .tuple a b, k => .same (split .value b (split .value a k).whenTrue).whenTrue
  | .assign operands targets, k =>
    .same ((split .value operands k).whenTrue.assignAll targets)
  | .call callee arguments, k =>
    .same (split .value arguments (split .value callee k).whenTrue).whenTrue
  -- What is given out is not evaluated, but only written.
  | .passed .out e, k => .same (k.assignAll e.targets)
  | .passed .ref e, k => .same ((split .value e k).whenTrue.assignAll e.targets)
  | .passed _ e, k => .same (split .value e k).whenTrue
  | .argument _ e, k => .same (split .value e k).whenTrue
  | .initializer e, k => .same (split .value e k).whenTrue
  | .declaration vs, k => .same (k.assignAll vs)
  | .pattern vs, k => .same (k.assignAll vs)
  | .throwing _, _ => .same .unreachable

/-- What is known behind an expression that is evaluated for its value. -/
def after (e : Expr) (k : Knowledge) : Knowledge := (e.split .value k).whenTrue

/-- What is known behind a condition, by its value. -/
def tested (e : Expr) (k : Knowledge) : Split := e.split .test k

/-- The variables that an expression reads where they may be unwritten. -/
def early (use : Use) : Expr → Knowledge → List VariableId
  | .constant, _ | .literal _, _ | .declaration _, _ | .pattern _, _ => []
  | .name v, k => v.toList.filter fun v => !k.knows v
  | .holes vs, k => vs.filter fun v => !k.knows v
  | .seq a b, k | .optional a b, k | .tuple a b, k | .call a b, k =>
    early .value a k ++ early .value b (a.after k)
  | .parenthesized e, k | .negation e, k => early use e k
  | .argument _ e, k | .initializer e, k | .throwing e, k => early .value e k
  | .conjunction a b, k => early .test a k ++ early .test b (a.tested k).whenTrue
  | .disjunction a b, k => early .test a k ++ early .test b (a.tested k).whenFalse
  | .conditional test a b, k =>
    early .test test k ++ early .value a (test.tested k).whenTrue ++
      early .value b (test.tested k).whenFalse
  | .assign operands _, k => early .value operands k
  | .passed .out _, _ => []
  | .passed _ e, k => early .value e k

end Expr

/-- What is known behind a statement, by the way that control leaves it. -/
structure Outcome where
  /-- Control goes on behind the statement. -/
  next : Knowledge := .unreachable
  /-- The innermost loop or switch is left. -/
  broken : Knowledge := .unreachable
  /-- The next round of the innermost loop begins. -/
  continued : Knowledge := .unreachable
  /-- The method is left. -/
  left : Knowledge := .unreachable
deriving Repr, Inhabited

namespace Outcome

/-- Join the jumps out of an earlier part to an outcome. -/
def withJumps (o earlier : Outcome) : Outcome where
  next := o.next
  broken := earlier.broken.join o.broken
  continued := earlier.continued.join o.continued
  left := earlier.left.join o.left

/-- One of two outcomes. -/
def join (a b : Outcome) : Outcome := { b.withJumps a with next := a.next.join b.next }

/-- The outcome of a loop, from that of its body. -/
def ofLoop (body : Outcome) (tested : Knowledge) : Outcome where
  next := tested.join body.broken
  left := body.left

/-- What is known where the next round of a loop begins. -/
def roundEnd (body : Outcome) : Knowledge := body.continued.join body.next

end Outcome

/-- What is known behind the test of a loop; a loop without a test goes on. -/
def splitTest (test : Option Expr) (k : Knowledge) : Split :=
  match test with
  | some e => e.tested k
  | none => ⟨k, .unreachable⟩

/-- What is known behind the labels of a section, taken in order. -/
def afterLabels (labels : List Expr) (k : Knowledge) : Knowledge :=
  labels.foldl (fun k e => e.after k) k

/-- The variables that the labels of a section read where they may be unwritten. -/
def earlyInLabels : List Expr → Knowledge → List VariableId
  | [], _ => []
  | e :: es, k => e.early .value k ++ earlyInLabels es (e.after k)

/-- What is known at the start of a round of a loop over a collection. -/
def beginRound (v : Option VariableId) (k : Knowledge) : Knowledge := k.assignAll v.toList

namespace Stmt

/-- What is known behind a statement. -/
def outcome : Stmt → Knowledge → Outcome
  | .skip, k => { next := k }
  | .eval e, k => { next := e.after k }
  | .declare v, k => { next := k.assign v }
  | .seq a b, k =>
    let o := outcome a k
    (outcome b o.next).withJumps o
  | .branch test a b, k =>
    let t := test.tested k
    (outcome a t.whenTrue).join (outcome b t.whenFalse)
  -- A loop is gone through once: what its rounds know is not less than what was known in front.
  | .whileLoop test body, k =>
    let t := test.tested k
    .ofLoop (outcome body t.whenTrue) t.whenFalse
  | .doLoop body test, k =>
    let o := outcome body k
    .ofLoop o (test.tested o.roundEnd).whenFalse
  | .forLoop test body _, k =>
    let t := splitTest test k
    .ofLoop (outcome body t.whenTrue) t.whenFalse
  | .forEach v body, k => .ofLoop (outcome body (beginRound v k)) k
  | .leave e, k => { left := e.after k }
  | .throwing _, _ => {}
  | .leaveLoop, k => { broken := k }
  | .nextRound, k => { continued := k }
  -- An exception may come at once, so handlers begin with what was known in front of the body.
  | .attempt body handlers, k => (outcome body k).join (outcome handlers k)
  | .choose a b, k => (outcome a k).join (outcome b k)
  | .cleanup body final, k =>
    let o := outcome body k
    let f := outcome final k
    -- Behind the last block, both what the body and what the block has written is known.
    { f.withJumps o with next := o.next.both f.next }
  | .switch sections, k =>
    let o := outcome sections k
    { next := o.next.join o.broken, continued := o.continued, left := o.left }
  | .labelled labels body, k => outcome body (afterLabels labels k)

/-- The variables that a statement reads where they may be unwritten. -/
def early : Stmt → Knowledge → List VariableId
  | .skip, _ | .declare _, _ | .leaveLoop, _ | .nextRound, _ => []
  | .eval e, k | .leave e, k | .throwing e, k => e.early .value k
  | .seq a b, k => early a k ++ early b (a.outcome k).next
  | .branch test a b, k =>
    test.early .test k ++ early a (test.tested k).whenTrue ++ early b (test.tested k).whenFalse
  | .whileLoop test body, k => test.early .test k ++ early body (test.tested k).whenTrue
  | .doLoop body test, k => early body k ++ test.early .test (body.outcome k).roundEnd
  | .forLoop test body step, k =>
    let inside := (splitTest test k).whenTrue
    ((test.map fun e => e.early .test k).getD []) ++ early body inside ++
      step.early .value (body.outcome inside).roundEnd
  | .forEach v body, k => early body (beginRound v k)
  | .attempt a b, k | .choose a b, k | .cleanup a b, k => early a k ++ early b k
  | .switch sections, k => early sections k
  | .labelled labels body, k => earlyInLabels labels k ++ early body (afterLabels labels k)

end Stmt

end CodeMend.Flow
