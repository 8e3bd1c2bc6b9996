import CodeMend.Model.Symbols

/-!
# CodeMend — method bodies as data flow sees them

Which variables a method body reads and writes, and in which order, does not depend on names, types
or values.  A `Flow.Expr` keeps of an expression the order of its operands, the points where an
operand may be left out, and the variables that are read and written; a `Flow.Stmt` keeps of a
statement the ways through it.

* **`Expr.targets`** — the variables that an expression names when it is assigned to.
* **`Expr.written`**, **`Stmt.written`** — every variable that is written somewhere inside.
-/

namespace CodeMend.Flow

inductive Expr where
  /-- Nothing is read or written. -/
  | constant
  /-- The constant true or false. -/
  | literal (value : Bool)
  /-- A bare name, and the variable that it means if it means one. -/
  | name (v : Option VariableId)
  /-- An interpolated string: the variables that its holes name. -/
  | holes (vs : List VariableId)
  /-- Two operands, one after the other. -/
  | seq (first second : Expr)
  | parenthesized (inner : Expr)
  | negation (operand : Expr)
  | conjunction (left right : Expr)
  | disjunction (left right : Expr)
  /-- The second operand may be left out. -/
  | optional (first second : Expr)
  | conditional (test whenTrue whenFalse : Expr)
  /-- The first item of a tuple, and the rest of it. -/
  | tuple (first rest : Expr)
  /-- An assignment: what is evaluated before the variables are written. -/
  | assign (operands : Expr) (targets : List VariableId)
  /-- A call: the callee, then the arguments one after the other. -/
  | call (callee arguments : Expr)
  /-- An argument of a call. -/
  | passed (mode : PassMode) (value : Expr)
  /-- An argument of something else: of an element access or of a creation. -/
  | argument (mode : PassMode) (value : Expr)
  /-- The items of an initializer in braces. -/
  | initializer (items : Expr)
  /-- Variables declared by an argument or on the left of an assignment. -/
  | declaration (vs : List VariableId)
  /-- Variables declared by a pattern. -/
  | pattern (vs : List VariableId)
  | throwing (exception : Expr)
deriving Repr, Inhabited

namespace Expr

/-- Operands one after the other. -/
def ofList (es : List Expr) : Expr := es.foldr seq constant

/-- The variables that an expression names when it is assigned to.  An element or a member of
something names none. -/
def targets : Expr → List VariableId
  | .name v => v.toList
  | .parenthesized inner => targets inner
  | .declaration vs => vs
  | .tuple first rest => targets first ++ targets rest
  | _ => []

/-- What is evaluated of the left side of a plain assignment.  A bare name and a declaration are
written without a look at what they hold. -/
def receivers : Expr → Expr
  | .name _ => .constant
  | .declaration _ => .constant
  | .tuple first rest => .seq (receivers first) (receivers rest)
  | e => e

/-- The variables that are written somewhere in an expression. -/
def written : Expr → List VariableId
  | .constant | .literal _ | .name _ | .holes _ => []
  | .seq a b | .conjunction a b | .disjunction a b | .optional a b | .tuple a b | .call a b =>
    written a ++ written b
  | .parenthesized e | .negation e | .argument _ e | .initializer e | .throwing e => written e
  | .conditional test a b => written test ++ written a ++ written b
  | .assign operands targets => written operands ++ targets
  | .passed .out e => e.targets
  | .passed .ref e => written e ++ e.targets
  | .passed _ e => written e
  | .declaration vs | .pattern vs => vs

end Expr

inductive Stmt where
  | skip
  | eval (e : Expr)
  /-- A variable is given its first value. -/
  | declare (v : VariableId)
  | seq (first second : Stmt)
  | branch (test : Expr) (whenTrue whenFalse : Stmt)
  | whileLoop (test : Expr) (body : Stmt)
  | doLoop (body : Stmt) (test : Expr)
  /-- A loop with a step that runs after each round.  Without a test it ends by a jump only. -/
  | forLoop (test : Option Expr) (body : Stmt) (step : Expr)
  /-- A loop over a collection, which has been evaluated: the variable is written in each round. -/
  | forEach (v : Option VariableId) (body : Stmt)
  /-- The end of the method. -/
  | leave (e : Expr)
  | throwing (exception : Expr)
  | leaveLoop
  | nextRound
  /-- A block that may be cut short at any point, and what runs then. -/
  | attempt (body handlers : Stmt)
  /-- One of two ways. -/
  | choose (first second : Stmt)
  /-- A statement, and what runs after it in any case. -/
  | cleanup (body final : Stmt)
  /-- The sections of a switch, from which a jump leads out. -/
  | switch (sections : Stmt)
  /-- A section of a switch: it is entered through one of its labels. -/
  | labelled (labels : List Expr) (body : Stmt)
deriving Repr, Inhabited

namespace Stmt

/-- Statements one after the other. -/
def ofList (ss : List Stmt) : Stmt := ss.foldr seq skip

/-- One of the given ways, or else the last one. -/
def chooseFrom (last : Stmt) (ss : List Stmt) : Stmt := ss.foldr choose last

/-- The variables that are written somewhere in a statement. -/
def written : Stmt → List VariableId
  | .skip | .leaveLoop | .nextRound => []
  | .eval e | .leave e | .throwing e => e.written
  | .declare v => [v]
  | .seq a b | .attempt a b | .choose a b | .cleanup a b => written a ++ written b
  | .branch test a b => test.written ++ written a ++ written b
  | .whileLoop test body => test.written ++ written body
  | .doLoop body test => written body ++ test.written
  | .forLoop test body step =>
    ((test.map Expr.written).getD []) ++ written body ++ step.written
  | .forEach v body => v.toList ++ written body
  | .switch sections => written sections
  | .labelled labels body => labels.flatMap Expr.written ++ written body

end Stmt

end CodeMend.Flow
