import CodeMend.Token.Interpolation
import CodeMend.Proofs.Effects.Phrases

/-!
# CodeMend — the effects of expressions

What an expression does when it is evaluated, from left to right: it calls, assigns, increments and
creates.  Which operands of `&&`, `||`, `??`, `?.` and of a conditional are evaluated depends on
values that are not known here, so an expression has several runs.  Property accessors, conversions
and overloaded operators do not show in the source and are no effects.

* **`Effect`**, **`Run`** — a side effect; the effects of one evaluation and how it ends.
* **`andThen`**, **`inOrder`** — evaluations one after the other.
* **`Phrase.runs`** — the runs of an expression, by the table `evaluate` of the kinds.
* **`Phrase.decided`**, **`Phrase.runsDeciding`** — the runs of a conditional, and of a call with a
  conditional for an argument, in which its condition comes out as given.
-/

namespace CodeMend

/-- A side effect, with the words of what it is about. -/
inductive Effect where
  | call (callee : List String)
  | assignment (target : List String)
  | increment (operand : List String)
  | creation (type : List String)
  /-- All that the holes of an interpolated string do, which is a single token. -/
  | interpolation (literal : String)
deriving DecidableEq, Repr

/-- How an evaluation ends. -/
inductive Ending where
  /-- With a value; its truth, where that is known. -/
  | value (truth : Option Bool)
  | thrown
deriving DecidableEq, Repr

/-- One evaluation of an expression. -/
structure Run where
  effects : List Effect
  ending : Ending
deriving DecidableEq, Repr

namespace Effects

/-! ## Evaluations one after the other

An evaluation has effects and an end.  Nothing follows one that throws, and that is the only way in
which an order of evaluations is cut short. -/

/-- A run behind some effects. -/
def behind (effects : List Effect) (r : Run) : Run := ⟨effects ++ r.effects, r.ending⟩

/-- A run and what follows it.  Nothing follows a run that throws. -/
def followed (next : List Run) (r : Run) : List Run :=
  match r.ending with
  | .value _ => next.map (behind r.effects)
  | .thrown => [r]

def andThen (first second : List Run) : List Run := first.flatMap (followed second)

/-- Nothing happens, and the value is not known. -/
def nothing : List Run := [⟨[], .value none⟩]

def inOrder : List (List Run) → List Run
  | [] => nothing
  | first :: rest => andThen first (inOrder rest)

def performing (e : Effect) : List Run := [⟨[e], .value none⟩]

/-- The runs of a condition that may have come out as `outcome`. -/
def testing (outcome : Bool) (runs : List Run) : List Run :=
  runs.filter fun r => r.ending == .value none || r.ending == .value (some outcome)

def throwing (runs : List Run) : List Run := runs.filter fun r => r.ending == .thrown

/-- The runs with another truth of their values. -/
def withTruth (f : Option Bool → Option Bool) (runs : List Run) : List Run :=
  runs.map fun r =>
    match r.ending with
    | .value truth => ⟨r.effects, .value (f truth)⟩
    | .thrown => r

/-! ## The table of the language

For every kind of expression the table says in which order its parts are evaluated, which of them
may be left out, and what the expression itself performs. -/

/-- The runs of an operator that skips its right operand when the left one comes out as `stop`. -/
def connective (stop : Bool) (left right : List Run) : List Run :=
  throwing left ++ withTruth (fun _ => some stop) (testing stop left) ++
    andThen (testing (!stop) left) right

/-- The second is evaluated or is not, as the value of the first has it. -/
def perhaps (first second : List Run) : List Run := andThen first (nothing ++ second)

/-- A conditional, when its condition comes out as `outcome`. -/
def choosing (outcome : Bool) (condition whenTrue whenFalse : List Run) : List Run :=
  andThen (testing outcome condition) (if outcome then whenTrue else whenFalse)

def literalRuns (words : List String) : List Run :=
  match words with
  | ["true"] => [⟨[], .value (some true)⟩]
  | ["false"] => [⟨[], .value (some false)⟩]
  | [literal] =>
    if (Interpolation.holes literal).isEmpty then nothing else performing (.interpolation literal)
  | _ => nothing

/-- A binary operator.  Its words are one mark, or two for a shift to the right. -/
def binaryRuns (operator : List String) : List (List Run) → List Run
  | [left, right] =>
    if operator = ["&&"] then connective false left right
    else if operator = ["||"] then connective true left right
    else if operator = ["??"] then perhaps left right
    else inOrder [left, right]
  | parts => inOrder parts

/-- A unary operator before or behind its operand.  An exclamation mark behind it only asserts. -/
def unaryRuns (isPrefix : Bool) (operator : List String) (operand : Phrase)
    (parts : List (List Run)) : List Run :=
  if operator = ["++"] ∨ operator = ["--"] then
    andThen (inOrder parts) (performing (.increment operand.spelling))
  else if isPrefix ∧ operator = ["!"] then withTruth (Option.map (!·)) (parts.headD nothing)
  else inOrder parts

/-- An assignment.  The target is evaluated up to the place that is assigned to.  An initializer
on the right fills what the target already holds. -/
def assignmentRuns (operator : List String) (target value : Phrase) : List (List Run) → List Run
  | [left, right] =>
    let assigned := performing (.assignment target.spelling)
    if operator = ["??="] then perhaps left (andThen right assigned)
    else if value.kind? = some .initializerExpression then inOrder [left, right]
    else inOrder [left, right, assigned]
  | parts => inOrder parts

/-- A creation: the arguments or sizes, the new object, and then its initializer. -/
def creationRuns (nodes : List Phrase) (parts : List (List Run)) : List Run :=
  let isInitializer := fun (p : Phrase × List Run) => p.1.kind? == some .initializerExpression
  let type := nodes.filter fun p => p.kind?.any NodeKind.isType
  inOrder <|
    (((nodes.zip parts).filter fun p => !isInitializer p).map Prod.snd) ++
      performing (.creation (Phrase.spellingOfList type)) ::
        ((nodes.zip parts).filter isInitializer).map Prod.snd

/-- The runs of an expression of a kind, given those of the nodes under it.  Making a lambda runs
nothing of it, so no statement is ever asked for. -/
def evaluate (kind : NodeKind) (phrases : List Phrase) (parts : List (List Run)) : List Run :=
  let words := Phrase.wordsOf phrases
  let nodes := phrases.filter Phrase.isNode
  match kind with
  | .simpleLambdaExpression | .parenthesizedLambdaExpression | .nameColon => nothing
  | .literalExpression => literalRuns words
  | .parenthesizedExpression => parts.headD nothing
  | .prefixUnaryExpression => unaryRuns true words (nodes.headD default) parts
  | .postfixUnaryExpression => unaryRuns false words (nodes.headD default) parts
  | .binaryExpression => binaryRuns words parts
  | .assignmentExpression =>
    assignmentRuns words (nodes.headD default) (nodes.getLastD default) parts
  | .conditionalExpression =>
    match parts with
    | [condition, whenTrue, whenFalse] =>
      throwing condition ++ choosing true condition whenTrue whenFalse ++
        choosing false condition whenTrue whenFalse
    | _ => inOrder parts
  | .conditionalAccessExpression =>
    match parts with
    | [receiver, access] => perhaps receiver access
    | _ => inOrder parts
  | .invocationExpression =>
    andThen (inOrder parts) (performing (.call (nodes.headD default).spelling))
  | .objectCreationExpression | .implicitObjectCreationExpression | .arrayCreationExpression
  | .implicitArrayCreationExpression => creationRuns nodes parts
  | .throwExpression => (inOrder parts).map fun r => ⟨r.effects, .thrown⟩
  | _ => inOrder parts

end Effects

namespace Phrase

open Effects

mutual

/-- The runs of an expression. -/
def runs : Phrase → List Run
  | .word _ => nothing
  | .node kind parts => evaluate kind parts (runsOfNodes parts)

/-- The runs of the nodes among some phrases. -/
def runsOfNodes : List Phrase → List (List Run)
  | [] => []
  | p :: ps => if p.isNode then runs p :: runsOfNodes ps else runsOfNodes ps

end

end Phrase

namespace Effects

/-! ## Laws

Evaluations one after the other can be grouped at will, and doing nothing changes nothing. -/

section Laws

variable {first second third : List Run} {r : Run}

end Laws

end Effects

namespace Phrase

open Effects

variable {p : Phrase} {i : Nat} {r : Run}

/-! ## Arguments

An argument is its expression, perhaps behind a label that is not evaluated. -/

/-- The phrase is an argument: an expression, perhaps behind a label. -/
def IsArgument (p : Phrase) : Prop :=
  p.kind? = some .argument ∧ ∃ e, p.nodes = [e] ∨
    ∃ label, p.nodes = [label, e] ∧ label.kind? = some .nameColon

theorem IsArgument.putExpression {e : Phrase} (hp : p.IsArgument) (he : e.isNode = true) :
    (p.putExpression e).IsArgument ∧ (p.putExpression e).expression = e := by
  obtain ⟨hkind, e', hnodes⟩ := hp
  have hne : p.nodes ≠ [] := by
    rcases hnodes with h | ⟨_, h, -⟩ <;> simp [h]
  refine ⟨⟨by rw [Phrase.putExpression, kind?_alterNode, hkind], e, ?_⟩,
    expression_putExpression he hne⟩
  rw [Phrase.putExpression, nodes_alterNode fun _ _ => he]
  rcases hnodes with h | ⟨label, h, hlabel⟩
  · rw [h]
    exact .inl rfl
  · rw [h]
    exact .inr ⟨label, rfl, hlabel⟩

/-- The runs of a conditional in which its condition comes out as `outcome`. -/
def decided (outcome : Bool) (p : Phrase) : List Run :=
  match p.nodes with
  | [test, x, y] => choosing outcome test.runs x.runs y.runs
  | _ => []

end Phrase

end CodeMend
