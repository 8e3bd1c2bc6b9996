import CodeMend.Flow.Reading
import CodeMend.Proofs.Token.Holes

/-!
# CodeMend — the ways through a method body

What an execution of a method body does to variables, told over the syntax tree and apart from any
analysis.  An execution leaves a `Trace` of reads and writes and an `Exit`.  Conditions go either
way unless they are the literal true or false, loops run any number of times, and everything can be
cut short at any point by an exception.

* **`Part`** — what can be gone through: an expression, a statement, or a piece of one.
* **`Way`** — the table of the language: through which parts a part can be gone, in order, what is
  read and written at the end of it, and how control leaves.
* **`Runs`** — a part is gone through, by a way and the parts on it.
* **`Executes`** — a whole body is gone through.
-/

namespace CodeMend.Flow

/-! ## Traces and exits

An execution is seen as a list of reads and writes, with how control leaves at its end.  No values
are kept, so a condition may come out either way unless it is a truth value that is written down. -/

/-- What an execution does to a variable. -/
inductive Event where
  | read (v : VariableId)
  | write (v : VariableId)
deriving DecidableEq, Repr

abbrev Trace := List Event

/-- The value of a variable is read before anything is written to it. -/
def ReadsFirst (v : VariableId) (tr : Trace) : Prop :=
  ∃ before after, tr = before ++ .read v :: after ∧ .write v ∉ before

/-- How control leaves what was gone through. -/
inductive Exit where
  /-- At its end.  For a condition, this is its value. -/
  | done (value : Bool)
  /-- By a jump behind the innermost loop or switch. -/
  | broken
  /-- By a jump to the next round of the innermost loop. -/
  | continued
  /-- By leaving the method. -/
  | left
  /-- By an exception. -/
  | cut
deriving DecidableEq, Repr

namespace Exit

def isDone : Exit → Bool
  | .done _ => true
  | _ => false

/-- The events at the end, which happen only when the end is reached. -/
def emits : Exit → Trace → Trace
  | .done _, events => events
  | _, _ => []

/-- The second exit, if the first one is the end of what came before it. -/
def andThen : Exit → Exit → Exit
  | .done _, ex => ex
  | ex, _ => ex

/-- Behind a round of a loop: a jump to the next round has come to the end of this one. -/
def afterRound : Exit → Exit
  | .continued => .done true
  | ex => ex

/-- Behind a loop or a switch: a jump behind it has come to its end. -/
def afterBreak : Exit → Exit
  | .broken => .done true
  | ex => ex

/-- The method is left without an exception. -/
def IsNormal (ex : Exit) : Prop := ex.isDone ∨ ex = .left

end Exit

/-! ## What places name and holes read

Which variables a place writes and a string reads is said by the names in them and by what these
mean to the binder. -/

/-- A place names a variable: the variable is written when the place is assigned to. -/
inductive Names (b : Binder) : NodeId → VariableId → Prop where
  | name {n v} : b.tree.kind n = .identifierName → namedVariable? b n = some v → Names b n v
  | parenthesized {n inner rest v} : b.tree.kind n = .parenthesizedExpression →
      b.tree.childNodes n = inner :: rest → Names b inner v → Names b n v
  | declaration {n v} : b.tree.kind n = .declarationExpression → v ∈ designatedVariables b n →
      Names b n v
  | tuple {n item v} : b.tree.kind n = .tupleExpression → item ∈ tupleItems b.tree n →
      Names b item v → Names b n v

/-- The variables that some arguments hand out of a call. -/
def HandsOut (b : Binder) (views : List ArgumentView) (v : VariableId) : Prop :=
  ∃ a ∈ views, (passMode b.tree a = .ref ∨ passMode b.tree a = .out) ∧ Names b a.expression v

/-- The events are writes, one at least for each of the variables. -/
def Writes (vs : VariableId → Prop) (events : Trace) : Prop :=
  ∀ e, e ∈ events ↔ ∃ v, e = .write v ∧ vs v

/-- The expression in a hole of a literal.  Where holes are, the scanner of tokens tells, on its way
to the closing quote; the analysis looks for them on its own. -/
def IsHole (literal : String) (expression : String) : Prop :=
  ∃ holes hole, Interpolation.recognisedHoles literal.toList = some holes ∧ hole ∈ holes ∧
    expression = String.ofList hole.expression

/-- A hole of a literal may read what a name means: the name stands in it, or in a hole of a string
inside of it.  A name behind a point is the name of a member.  A hole that does not split into
tokens may read anything. -/
inductive InHole : String → String → Prop where
  | here {literal expression front t rest} : IsHole literal expression →
      tokenize expression = .ok (front ++ t :: rest) → t.isIdentifier = true →
      (∀ p ∈ front.getLast?, p.isMark "." = false ∧ p.isMark "?." = false) →
      InHole literal t.valueText
  | inside {literal expression tokens t name} : IsHole literal expression →
      tokenize expression = .ok tokens → t ∈ tokens → InHole t.text name → InHole literal name
  | unread {literal expression e name} : IsHole literal expression →
      tokenize expression = .error e → InHole literal name

/-- The holes of a literal may read a variable. -/
def HoleReads (b : Binder) (literal : NodeId) (v : VariableId) : Prop :=
  ∃ name, InHole (b.tree.text literal) name ∧ variableInScope? b name literal = some v

/-- The value of a literal that is a truth value. -/
def literalTruth? (t : Tree) (n : NodeId) : Option Bool :=
  if (t.token (t.firstToken n)).isKeyword "true" then some true
  else if (t.token (t.firstToken n)).isKeyword "false" then some false
  else none

/-! ## Parts of a body

Each kind of node has parts, and a way through it is a list of these with the events behind each.
The rules follow the order of evaluation of the language and know nothing of the analysis. -/

/-- What can be gone through. -/
inductive Part where
  | expr (n : NodeId)
  /-- A condition that comes out with a value. -/
  | test (n : NodeId) (value : Bool)
  /-- A pattern that matches or does not. -/
  | pattern (n : NodeId) (matched : Bool)
  /-- A place that is only written: what has to be evaluated in front. -/
  | place (n : NodeId)
  | argument (view : ArgumentView)
  /-- A node under the creation of an object, or the value of a member of it. -/
  | created (n : NodeId)
  /-- An item of the initializer of an object. -/
  | member (n : NodeId)
  | write (v : VariableId)
  | declarator (n : NodeId)
  | statement (n : NodeId)
  /-- A loop or a switch, until it is left. -/
  | breakable (n : NodeId)
  /-- What a jump behind it leads out of: the rounds of a loop, or the sections of a switch. -/
  | inside (n : NodeId)
  /-- One round of a loop: its body. -/
  | round (body : NodeId)
  /-- A label of a switch that is chosen, or tried in vain. -/
  | label (n : NodeId) (chosen : Bool)
  /-- A try statement without what runs in any case. -/
  | guarded (n : NodeId)
  /-- The catch clauses of a try statement. -/
  | handlers (n : NodeId)
  | caught (clause : NodeId)
  /-- A catch clause whose filter does not hold. -/
  | refused (clause : NodeId)
deriving Repr

/-- The kinds of nodes that do not evaluate anything.  Making a lambda runs nothing of it. -/
def leafKinds : List NodeKind := [.thisExpression, .baseExpression, .predefinedType, .genericName,
  .qualifiedName, .memberBindingExpression, .typeOfExpression, .defaultExpression, .typePattern,
  .nameColon, .simpleLambdaExpression, .parenthesizedLambdaExpression]

/-- The kinds of nodes that evaluate all nodes under them, in order. -/
def straightKinds : List NodeKind := [.elementAccessExpression, .elementBindingExpression,
  .awaitExpression, .constantPattern, .implicitArrayCreationExpression, .initializerExpression]

/-- The kinds of places that are not evaluated as expressions. -/
def placeKinds : List NodeKind :=
  [.identifierName, .declarationExpression, .parenthesizedExpression, .tupleExpression]

/-- The node raises or lowers its operand by one. -/
def increments (t : Tree) (n : NodeId) : Bool :=
  (t.childTokens n).any fun i => (t.token i).isMark "++" || (t.token i).isMark "--"

/-- The node is a negation. -/
def negates (t : Tree) (n : NodeId) : Bool :=
  t.kind n == .prefixUnaryExpression && (t.token (t.firstToken n)).isMark "!"

/-- The nodes under a creation that are not its type. -/
def createdNodes (t : Tree) (n : NodeId) : List NodeId :=
  (t.childNodes n).filter fun c => !(t.kind c).isType

/-- The sizes of a new array: they stand in brackets inside of its type. -/
def arraySizes (t : Tree) (n : NodeId) : List NodeId :=
  (t.childrenOfKind n .arrayType).flatMap fun type =>
    (t.childrenOfKind type .arrayRankSpecifier).flatMap t.childNodes

/-- The item of the initializer of an object gives a value to a member of the new object. -/
def IsMember (t : Tree) (item target value : NodeId) : Prop :=
  t.kind item = .assignmentExpression ∧ operatorText t item = "=" ∧
    (∃ rest, t.childNodes item = target :: value :: rest) ∧ t.kind target = .identifierName

/-- The first node under a node, if there is one, as an expression. -/
def firstPart (t : Tree) (n : NodeId) : List Part := ((t.childNodes n).take 1).map .expr

/-- The first write to a variable that a token declares. -/
def declaredPart (b : Binder) (identifier : Option TokenId) : List Part :=
  identifier.toList.map fun i => .write (declaredVariable b i)

/-- The parts of a declaration of variables. -/
def declarationParts (t : Tree) (declaration : NodeId) : List Part :=
  (t.childrenOfKind declaration .variableDeclarator).map .declarator

/-- The parts of what stands in the head of a statement. -/
def headParts (t : Tree) (n : NodeId) : List Part :=
  if t.kind n == .variableDeclaration then declarationParts t n else [.expr n]

/-- The parts of a for statement. -/
def forParts (t : Tree) (n : NodeId) : ForParts := (t.children n).foldl (ForParts.add t) {}

/-- What runs of a part of a catch clause that is taken. -/
def catchParts (b : Binder) (part : NodeId) : List Part :=
  match b.tree.kind part with
  | .catchDeclaration => declaredPart b (declaredIdentifier? b.tree part)
  | .block => [.statement part]
  | _ => [.test part true]

/-- The block of a try statement. -/
def tryBlock? (t : Tree) (n : NodeId) : Option NodeId :=
  (t.childNodes n).find? fun c => t.kind c == .block

/-- The block of a try statement that runs in any case. -/
def finallyBlock? (t : Tree) (n : NodeId) : Option NodeId :=
  ((t.childNodes n).find? fun c => t.kind c == .finallyClause).bind fun c => (t.childNodes c).head?

/-- The labels of a section of a switch. -/
def sectionLabels (t : Tree) (group : NodeId) : List NodeId :=
  (t.childNodes group).filter (isLabel t)

/-- The statements of a section of a switch. -/
def sectionStatements (t : Tree) (group : NodeId) : List NodeId :=
  (t.childNodes group).filter fun c => !isLabel t c

/-! ## The table of the language

`Way b p ps events ex`: the part `p` is gone through by the parts `ps` in order; at the end of them
the events happen, and control leaves by the exit.  A part may have several ways. -/

inductive Way (b : Binder) : Part → List Part → Trace → Exit → Prop where
  -- Names and literals.
  | named {n v c} : b.tree.kind n = .identifierName → namedVariable? b n = some v →
      Way b (.expr n) [] [.read v] (.done c)
  | unbound {n c} : b.tree.kind n = .identifierName → namedVariable? b n = none →
      Way b (.expr n) [] [] (.done c)
  | truth {n c} : b.tree.kind n = .literalExpression → literalTruth? b.tree n = some c →
      Way b (.expr n) [] [] (.done c)
  | literal {n events c} : b.tree.kind n = .literalExpression → literalTruth? b.tree n = none →
      (∀ e ∈ events, ∃ v, e = .read v ∧ HoleReads b n v) → Way b (.expr n) [] events (.done c)
  | leaf {n c} : b.tree.kind n ∈ leafKinds → Way b (.expr n) [] [] (.done c)
  -- Operands one after the other.
  | straight {n c} : b.tree.kind n ∈ straightKinds →
      Way b (.expr n) ((b.tree.childNodes n).map .expr) [] (.done c)
  | access {n c} : b.tree.kind n = .memberAccessExpression ∨ b.tree.kind n = .asExpression →
      Way b (.expr n) (((b.tree.childNodes n).take 1).map .expr) [] (.done c)
  | cast {n c} : b.tree.kind n = .castExpression →
      Way b (.expr n) ((((b.tree.childNodes n).drop 1).take 1).map .expr) [] (.done c)
  | tuple {n c} : b.tree.kind n = .tupleExpression →
      Way b (.expr n) ((tupleItems b.tree n).map .expr) [] (.done c)
  | throwing {n} : b.tree.kind n = .throwExpression →
      Way b (.expr n) ((b.tree.childNodes n).map .expr) [] .cut
  | declaration {n events c} : b.tree.kind n = .declarationExpression →
      Writes (· ∈ designatedVariables b n) events → Way b (.expr n) [] events (.done c)
  -- Operators.
  | parenthesized {n inner rest c} : b.tree.kind n = .parenthesizedExpression →
      b.tree.childNodes n = inner :: rest → Way b (.expr n) [.test inner c] [] (.done c)
  | increment {n operand rest events c} :
      b.tree.kind n = .prefixUnaryExpression ∨ b.tree.kind n = .postfixUnaryExpression →
      b.tree.childNodes n = operand :: rest → increments b.tree n = true →
      Writes (Names b operand) events →
      Way b (.expr n) [.expr operand] events (.done c)
  | negation {n operand rest c} : b.tree.kind n = .prefixUnaryExpression →
      b.tree.childNodes n = operand :: rest → increments b.tree n = false →
      negates b.tree n = true →
      Way b (.expr n) [.test operand c] [] (.done !c)
  | unary {n operand rest c} :
      b.tree.kind n = .prefixUnaryExpression ∨ b.tree.kind n = .postfixUnaryExpression →
      b.tree.childNodes n = operand :: rest → increments b.tree n = false →
      negates b.tree n = false → Way b (.expr n) [.expr operand] [] (.done c)
  | andFalse {n left right rest} : b.tree.kind n = .binaryExpression →
      b.tree.childNodes n = left :: right :: rest → operatorText b.tree n = "&&" →
      Way b (.expr n) [.test left false] [] (.done false)
  | and {n left right rest c} : b.tree.kind n = .binaryExpression →
      b.tree.childNodes n = left :: right :: rest → operatorText b.tree n = "&&" →
      Way b (.expr n) [.test left true, .test right c] [] (.done c)
  | orTrue {n left right rest} : b.tree.kind n = .binaryExpression →
      b.tree.childNodes n = left :: right :: rest → operatorText b.tree n = "||" →
      Way b (.expr n) [.test left true] [] (.done true)
  | or {n left right rest c} : b.tree.kind n = .binaryExpression →
      b.tree.childNodes n = left :: right :: rest → operatorText b.tree n = "||" →
      Way b (.expr n) [.test left false, .test right c] [] (.done c)
  | present {n left right rest c} : b.tree.kind n = .binaryExpression →
      b.tree.childNodes n = left :: right :: rest → operatorText b.tree n = "??" →
      Way b (.expr n) [.expr left] [] (.done c)
  | absent {n left right rest c} : b.tree.kind n = .binaryExpression →
      b.tree.childNodes n = left :: right :: rest → operatorText b.tree n = "??" →
      Way b (.expr n) [.expr left, .expr right] [] (.done c)
  | binary {n left right rest c} : b.tree.kind n = .binaryExpression →
      b.tree.childNodes n = left :: right :: rest →
      operatorText b.tree n ∉ ["&&", "||", "??"] →
      Way b (.expr n) [.expr left, .expr right] [] (.done c)
  | accessOfNull {n receiver access rest c} : b.tree.kind n = .conditionalAccessExpression →
      b.tree.childNodes n = receiver :: access :: rest →
      Way b (.expr n) [.expr receiver] [] (.done c)
  | accessOfValue {n receiver access rest c} : b.tree.kind n = .conditionalAccessExpression →
      b.tree.childNodes n = receiver :: access :: rest →
      Way b (.expr n) [.expr receiver, .expr access] [] (.done c)
  | whenTrue {n test first second rest c} : b.tree.kind n = .conditionalExpression →
      b.tree.childNodes n = test :: first :: second :: rest →
      Way b (.expr n) [.test test true, .expr first] [] (.done c)
  | whenFalse {n test first second rest c} : b.tree.kind n = .conditionalExpression →
      b.tree.childNodes n = test :: first :: second :: rest →
      Way b (.expr n) [.test test false, .expr second] [] (.done c)
  | isPattern {n operand pattern c} : b.tree.kind n = .isPatternExpression →
      b.tree.childNodes n = [operand, pattern] →
      Way b (.expr n) [.expr operand, .pattern pattern c] [] (.done c)
  -- Patterns: a variable is written when the pattern matches.
  | matched {n events c} : b.tree.kind n = .declarationPattern →
      Writes (· ∈ designatedVariables b n) events → Way b (.pattern n true) [] events (.done c)
  | unmatched {n c} : b.tree.kind n = .declarationPattern →
      Way b (.pattern n false) [] [] (.done c)
  | notPattern {n inner m c} : b.tree.kind n = .notPattern → b.tree.childNodes n = [inner] →
      Way b (.pattern n m) [.pattern inner !m] [] (.done c)
  | otherPattern {n m c} : b.tree.kind n ≠ .declarationPattern → b.tree.kind n ≠ .notPattern →
      Way b (.pattern n m) [.expr n] [] (.done c)
  -- Assignments: what the place needs, the value, and then the write.
  | assignment {n target value rest events c} : b.tree.kind n = .assignmentExpression →
      b.tree.childNodes n = target :: value :: rest → operatorText b.tree n = "=" →
      Writes (Names b target) events →
      Way b (.expr n) [.place target, .expr value] events (.done c)
  | assignmentIfNull {n target value rest events c} : b.tree.kind n = .assignmentExpression →
      b.tree.childNodes n = target :: value :: rest → operatorText b.tree n = "??=" →
      Writes (Names b target) events →
      Way b (.expr n) [.expr target, .expr value] events (.done c)
  | notNull {n target value rest c} : b.tree.kind n = .assignmentExpression →
      b.tree.childNodes n = target :: value :: rest → operatorText b.tree n = "??=" →
      Way b (.expr n) [.expr target] [] (.done c)
  | compound {n target value rest events c} : b.tree.kind n = .assignmentExpression →
      b.tree.childNodes n = target :: value :: rest → operatorText b.tree n ∉ ["=", "??="] →
      Writes (Names b target) events →
      Way b (.expr n) [.expr target, .expr value] events (.done c)
  | simplePlace {n c} :
      b.tree.kind n = .identifierName ∨ b.tree.kind n = .declarationExpression →
      Way b (.place n) [] [] (.done c)
  | placeInParentheses {n inner rest c} : b.tree.kind n = .parenthesizedExpression →
      b.tree.childNodes n = inner :: rest → Way b (.place n) [.place inner] [] (.done c)
  | placesOfTuple {n c} : b.tree.kind n = .tupleExpression →
      Way b (.place n) ((tupleItems b.tree n).map .place) [] (.done c)
  | otherPlace {n c} : b.tree.kind n ∉ placeKinds → Way b (.place n) [.expr n] [] (.done c)
  -- Calls: arguments that are handed out are written when the call returns.
  | call {n view events c} : InvocationView.ofNode? b.tree n = some view →
      Writes (HandsOut b (view.argumentViews b.tree)) events →
      Way b (.expr n) (.expr view.callee :: (view.argumentViews b.tree).map .argument) events
        (.done c)
  | arguments {n views events c} :
      b.tree.kind n = .argumentList ∨ b.tree.kind n = .bracketedArgumentList →
      (b.tree.childNodes n).mapM (ArgumentView.ofNode? b.tree) = some views →
      Writes (HandsOut b views) events →
      Way b (.expr n) (views.map .argument) events (.done c)
  | passedOut {a c} : passMode b.tree a = .out →
      Way b (.argument a) [.place a.expression] [] (.done c)
  | passedIn {a c} : passMode b.tree a ≠ .out →
      Way b (.argument a) [.expr a.expression] [] (.done c)
  -- Creations: an item of the initializer of an object gives a value to a member.
  | creation {n c} : b.tree.kind n = .objectCreationExpression →
      Way b (.expr n) ((createdNodes b.tree n).map .created) [] (.done c)
  | implicitCreation {n c} : b.tree.kind n = .implicitObjectCreationExpression →
      Way b (.expr n) ((b.tree.childNodes n).map .created) [] (.done c)
  | arrayCreation {n c} : b.tree.kind n = .arrayCreationExpression →
      Way b (.expr n) ((arraySizes b.tree n).map .expr ++ (createdNodes b.tree n).map .expr) []
        (.done c)
  | members {n c} : b.tree.kind n = .initializerExpression →
      Way b (.created n) ((b.tree.childNodes n).map .member) [] (.done c)
  | noMembers {n c} : b.tree.kind n ≠ .initializerExpression →
      Way b (.created n) [.expr n] [] (.done c)
  | member {n target value c} : IsMember b.tree n target value →
      Way b (.member n) [.created value] [] (.done c)
  | otherItem {n c} : (∀ target value, ¬ IsMember b.tree n target value) →
      Way b (.member n) [.expr n] [] (.done c)
  -- Declarations and plain statements.
  | write {v c} : Way b (.write v) [] [.write v] (.done c)
  | declarator {n clause c} : b.tree.childOfKind? n .equalsValueClause = some clause →
      Way b (.declarator n)
        (firstPart b.tree clause ++ declaredPart b (b.tree.childTokens n).head?) [] (.done c)
  | bareDeclarator {n c} : b.tree.childOfKind? n .equalsValueClause = none →
      Way b (.declarator n) [] [] (.done c)
  | block {n c} : b.tree.kind n = .block →
      Way b (.statement n) ((b.tree.childNodes n).map .statement) [] (.done c)
  | empty {n c} : b.tree.kind n = .emptyStatement → Way b (.statement n) [] [] (.done c)
  | localDeclaration {n declaration c} : b.tree.kind n = .localDeclarationStatement →
      b.tree.childOfKind? n .variableDeclaration = some declaration →
      Way b (.statement n) (declarationParts b.tree declaration) [] (.done c)
  | evaluation {n c} :
      b.tree.kind n = .expressionStatement ∨ b.tree.kind n = .yieldReturnStatement →
      Way b (.statement n) (firstPart b.tree n) [] (.done c)
  | ifTrue {n view c} : IfView.ofNode? b.tree n = some view →
      Way b (.statement n) [.test view.condition true, .statement view.statement] [] (.done c)
  | ifFalse {n view c} : IfView.ofNode? b.tree n = some view →
      Way b (.statement n)
        (.test view.condition false :: view.elseStatement.toList.map .statement) [] (.done c)
  | useResource {n body c} : b.tree.kind n = .usingStatement →
      ((b.tree.childNodes n).filter fun c => (b.tree.kind c).isStatement).getLast? = some body →
      Way b (.statement n)
        (((b.tree.childNodes n).filter fun c => !(b.tree.kind c).isStatement).flatMap
          (headParts b.tree) ++ [.statement body]) [] (.done c)
  | lock {n object body rest c} : b.tree.kind n = .lockStatement →
      b.tree.childNodes n = object :: body :: rest →
      Way b (.statement n) [.expr object, .statement body] [] (.done c)
  -- Jumps.
  | leave {n} : b.tree.kind n = .returnStatement →
      Way b (.statement n) (firstPart b.tree n) [] .left
  | yieldBreak {n} : b.tree.kind n = .yieldBreakStatement → Way b (.statement n) [] [] .left
  | raise {n} : b.tree.kind n = .throwStatement →
      Way b (.statement n) (firstPart b.tree n) [] .cut
  | leaveLoop {n} : b.tree.kind n = .breakStatement → Way b (.statement n) [] [] .broken
  | nextRound {n} : b.tree.kind n = .continueStatement → Way b (.statement n) [] [] .continued
  -- Loops: one round and the loop again, or no round.
  | loop {n c} : b.tree.kind n = .whileStatement ∨ b.tree.kind n = .doStatement →
      Way b (.statement n) [.breakable n] [] (.done c)
  | whileEnd {n test body rest c} : b.tree.kind n = .whileStatement →
      b.tree.childNodes n = test :: body :: rest →
      Way b (.inside n) [.test test false] [] (.done c)
  | whileRound {n test body rest c} : b.tree.kind n = .whileStatement →
      b.tree.childNodes n = test :: body :: rest →
      Way b (.inside n) [.test test true, .round body, .inside n] [] (.done c)
  | doEnd {n body test rest c} : b.tree.kind n = .doStatement →
      b.tree.childNodes n = body :: test :: rest →
      Way b (.inside n) [.round body, .test test false] [] (.done c)
  | doRound {n body test rest c} : b.tree.kind n = .doStatement →
      b.tree.childNodes n = body :: test :: rest →
      Way b (.inside n) [.round body, .test test true, .inside n] [] (.done c)
  | forLoop {n c} : b.tree.kind n = .forStatement →
      Way b (.statement n) ((forParts b.tree n).before.flatMap (headParts b.tree) ++ [.breakable n])
        [] (.done c)
  | forEnd {n test rest c} : b.tree.kind n = .forStatement →
      (forParts b.tree n).test = test :: rest → Way b (.inside n) [.test test false] [] (.done c)
  | forRound {n body c} : b.tree.kind n = .forStatement → (forParts b.tree n).body = some body →
      Way b (.inside n)
        (((forParts b.tree n).test.take 1).map (.test · true) ++ .round body ::
          ((forParts b.tree n).steps.map .expr ++ [.inside n])) [] (.done c)
  | forEach {n type collection body rest c} : b.tree.kind n = .forEachStatement →
      b.tree.childNodes n = type :: collection :: body :: rest →
      Way b (.statement n) [.expr collection, .breakable n] [] (.done c)
  | forEachEnd {n c} : b.tree.kind n = .forEachStatement → Way b (.inside n) [] [] (.done c)
  | forEachRound {n type collection body rest c} : b.tree.kind n = .forEachStatement →
      b.tree.childNodes n = type :: collection :: body :: rest →
      Way b (.inside n)
        (declaredPart b (declaredIdentifier? b.tree n) ++ [.round body, .inside n]) [] (.done c)
  -- A switch: any labels may be tried in vain before one is chosen.
  | switch {n governing sections c} : b.tree.kind n = .switchStatement →
      b.tree.childNodes n = governing :: sections →
      Way b (.statement n) [.expr governing, .breakable n] [] (.done c)
  | chooseSection {n governing sections} {tried : List NodeId} {group label c} :
      b.tree.kind n = .switchStatement →
      b.tree.childNodes n = governing :: sections →
      (∀ l ∈ tried, ∃ s ∈ sections, l ∈ sectionLabels b.tree s) →
      group ∈ sections → label ∈ sectionLabels b.tree group →
      Way b (.inside n) (tried.map (.label · false) ++ .label label true ::
        (sectionStatements b.tree group).map .statement) [] (.done c)
  | noSection {n governing sections} {tried : List NodeId} {c} : b.tree.kind n = .switchStatement →
      b.tree.childNodes n = governing :: sections →
      (∀ l ∈ tried, ∃ s ∈ sections, l ∈ sectionLabels b.tree s) →
      (∀ s ∈ sections, b.tree.childOfKind? s .defaultSwitchLabel = none) →
      Way b (.inside n) (tried.map (.label · false)) [] (.done c)
  | defaultLabel {n c} : b.tree.childNodes n = [] → Way b (.label n true) [] [] (.done c)
  | chosen {n pattern filters c} : b.tree.childNodes n = pattern :: filters →
      Way b (.label n true) (.pattern pattern true :: filters.map (.test · true)) [] (.done c)
  | unlike {n pattern filters c} : b.tree.childNodes n = pattern :: filters →
      Way b (.label n false) [.pattern pattern false] [] (.done c)
  | filtered {n pattern before filter after c} :
      b.tree.childNodes n = pattern :: (before ++ filter :: after) →
      Way b (.label n false)
        (.pattern pattern true :: (before.map (.test · true) ++ [.test filter false])) [] (.done c)
  -- Exceptions: a clause is taken after others were refused, or none is.
  | unguarded {n c} : b.tree.kind n = .tryStatement → finallyBlock? b.tree n = none →
      Way b (.statement n) [.guarded n] [] (.done c)
  | guarded {n body c} : tryBlock? b.tree n = some body →
      Way b (.guarded n) [.statement body] [] (.done c)
  | handled {n} {refused : List NodeId} {clause c} :
      (∀ r ∈ refused, r ∈ b.tree.childrenOfKind n .catchClause) →
      clause ∈ b.tree.childrenOfKind n .catchClause →
      Way b (.handlers n) (refused.map .refused ++ [.caught clause]) [] (.done c)
  | unhandled {n} {refused : List NodeId} :
      (∀ r ∈ refused, r ∈ b.tree.childrenOfKind n .catchClause) →
      Way b (.handlers n) (refused.map .refused) [] .cut
  | caught {clause c} :
      Way b (.caught clause) ((b.tree.childNodes clause).flatMap (catchParts b)) [] (.done c)
  | refused {clause before filter after c} :
      b.tree.childNodes clause = before ++ filter :: after →
      (∀ c ∈ before, b.tree.kind c = .catchDeclaration) →
      b.tree.kind filter ≠ .catchDeclaration → b.tree.kind filter ≠ .block →
      Way b (.refused clause) (before.flatMap (catchParts b) ++ [.test filter false]) [] (.done c)

/-! ## Executions

A whole execution is a tree of ways.  Exceptions may be raised in front of any part, so every
execution may also be cut short there. -/

/-- What is gone through: one part, or parts one after the other. -/
inductive Job where
  | one (p : Part)
  | each (ps : List Part)

/-- A job is gone through with a trace and an exit. -/
inductive Runs (b : Binder) : Job → Trace → Exit → Prop where
  /-- An exception cuts the job short before it begins. -/
  | cut {j} : Runs b j [] .cut
  | none {c} : Runs b (.each []) [] (.done c)
  | next {p ps t₁ t₂ c ex} : Runs b (.one p) t₁ (.done c) → Runs b (.each ps) t₂ ex →
      Runs b (.each (p :: ps)) (t₁ ++ t₂) ex
  | stop {p ps tr ex} : Runs b (.one p) tr ex → ex.isDone = false → Runs b (.each (p :: ps)) tr ex
  | way {p ps events tr ex' ex} : Way b p ps events ex → Runs b (.each ps) tr ex' →
      Runs b (.one p) (tr ++ ex'.emits events) (ex'.andThen ex)
  | test {n value tr ex} : Runs b (.one (.expr n)) tr ex → (∀ c, ex = .done c → c = value) →
      Runs b (.one (.test n value)) tr ex
  | round {body tr ex} : Runs b (.one (.statement body)) tr ex →
      Runs b (.one (.round body)) tr ex.afterRound
  | breakable {n tr ex} : Runs b (.one (.inside n)) tr ex →
      Runs b (.one (.breakable n)) tr ex.afterBreak
  /-- The block of a try statement is cut short at any point, and the catch clauses follow. -/
  | handle {n body t₁ t₂ ex} : tryBlock? b.tree n = some body →
      Runs b (.one (.statement body)) t₁ .cut → Runs b (.one (.handlers n)) t₂ ex →
      Runs b (.one (.guarded n)) (t₁ ++ t₂) ex
  /-- However a try statement is left, its last block runs. -/
  | cleanup {n final t₁ t₂ ex' ex} : b.tree.kind n = .tryStatement →
      finallyBlock? b.tree n = some final → Runs b (.one (.guarded n)) t₁ ex →
      Runs b (.one (.statement final)) t₂ ex' →
      Runs b (.one (.statement n)) (t₁ ++ t₂) (ex'.andThen ex)

/-- A body in braces or behind an arrow is gone through. -/
def Executes (b : Binder) (body : NodeId) (tr : Trace) (ex : Exit) : Prop :=
  (b.tree.kind body = .block ∧ Runs b (.one (.statement body)) tr ex) ∨
  (b.tree.kind body = .arrowExpressionClause ∧ ∃ e rest, b.tree.childNodes body = e :: rest ∧
    Runs b (.one (.expr e)) tr ex)

end CodeMend.Flow
