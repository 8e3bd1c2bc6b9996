import CodeMend.Text.Position
import CodeMend.Token.Lexer
import CodeMend.Tree.Basic

/-!
# CodeMend — reading tokens

A `Parser` walks over the tokens of a source and builds a tree on its way.  It returns the shapes of
what it built, which tell what stands in the tree without a look into its arrays.

* **`node`**, **`nodeAt`** — a node around what is read next, or around that and what stands
  already.
* **`seq`**, **`whenAt`**, **`manyWhile`**, **`grow`** — the ways in which rules are put together.
* **`expect`** and its kin — tokens that have to be there.
-/

namespace CodeMend

/-- Why a source does not parse. -/
inductive ParseFault where
  /-- The source does not even split into tokens. -/
  | lex (fault : LexFault)
  /-- Something else stands where `expected` has to be; nothing when the source ends. -/
  | unexpected (expected : String) (found : Option String)
  /-- The nesting exceeds what the parser allows for. -/
  | tooDeep
deriving DecidableEq, Repr

/-- A fault with the place of the offending token. -/
structure ParseError where
  fault : ParseFault
  offset : Nat
  position : Position
deriving DecidableEq, Repr

def ParseFault.message : ParseFault → String
  | .lex fault => fault.message
  | .unexpected expected found =>
    "expected " ++ expected ++ ", found " ++
      (match found with
        | some text => "'" ++ text ++ "'"
        | none => "end of file")
  | .tooDeep => "nesting too deep"

def ParseError.message (e : ParseError) : String :=
  e.fault.message ++ " at line " ++ toString e.position.line ++ ", column " ++
    toString e.position.column

/-- The error of a fault at a byte offset of a source. -/
def ParseError.ofFault (source : String) (fault : ParseFault) (offset : Nat) : ParseError :=
  ⟨fault, offset, Position.ofOffset source offset⟩

/-- The token at an index; past the end, the one that marks the end of the file. -/
def tokenAt (tokens : Array Token) (i : Nat) : Token :=
  tokens.getD (min i (tokens.size - 1)) Tree.noToken

/-- Where a parser stands: its tokens, the index of the next one and the tree built so far. -/
structure Cursor where
  tokens : Array Token
  pos : Nat
  builder : TreeBuilder

namespace Cursor

def current (c : Cursor) : Token := tokenAt c.tokens c.pos

/-- The token `n` places ahead. -/
def nth (c : Cursor) (n : Nat) : Token := tokenAt c.tokens (c.pos + n)

def atMark (c : Cursor) (mark : String) : Bool := c.current.isMark mark

def atWord (c : Cursor) (word : String) : Bool := c.current.isKeyword word

def atContextual (c : Cursor) (word : String) : Bool := c.current.isContextual word

def atIdentifier (c : Cursor) : Bool := c.current.isIdentifier

def atEnd (c : Cursor) : Bool := c.current.kind == .endOfFile

/-- The next token but one follows the next one without a gap. -/
def nextIsAdjacent (c : Cursor) : Bool :=
  match c.tokens[c.pos]?, c.tokens[c.pos + 1]? with
  | some a, some b => a.stop == b.offset
  | _, _ => false

end Cursor

/-- A reader of tokens; it fails with a fault and the byte offset at which it lies. -/
abbrev Parser := StateT Cursor (Except (ParseFault × Nat))

namespace Parser

/-- Go on according to where the parser stands. -/
def choose {α : Type} (f : Cursor → Parser α) : Parser α := do f (← get)

/-- The next token is not what has to be there. -/
def unexpected {α : Type} (expected : String) : Parser α := do
  let t := (← get).current
  throw (.unexpected expected (if t.kind == .endOfFile then none else some t.text), t.offset)

/-- Nesting went past the allowance. -/
def tooDeep {α : Type} : Parser α := do
  throw (.tooDeep, (← get).current.offset)

/-- Begin a node.  At a checkpoint, it takes in what was built since then.  Its number is
returned. -/
def start (since : Option Checkpoint) (kind : NodeKind) : Parser NodeId := do
  let c ← get
  set { c with builder := c.builder.startNodeSince since kind }
  return c.builder.nodes.size

/-- End the node that is open. -/
def finish : Parser Unit := do
  let c ← get
  set { c with builder := c.builder.finishNode }

/-- The place behind what was built. -/
def checkpoint : Parser Checkpoint := do return (← get).builder.checkpoint

/-- The next token, which is left behind.  The end of the file is never left behind. -/
def bump : Parser (List Shape) := do
  let c ← get
  if c.pos < c.tokens.size - 1 then
    set { c with pos := c.pos + 1, builder := c.builder.token c.pos }
    return [.token c.pos]
  else return []

/-- Tokens up to an index. -/
def bumpTo (stop : Nat) : Parser (List Shape) := do
  let c ← get
  if c.pos < stop ∧ stop ≤ c.tokens.size - 1 then
    let passed := List.range' c.pos (stop - c.pos)
    set { c with pos := stop, builder := passed.foldl TreeBuilder.token c.builder }
    return passed.map .token
  else return []

/-- The token that ends the file, which carries the trivia at its end. -/
def endOfFile : Parser (List Shape) := do
  let c ← get
  set { c with builder := c.builder.token c.pos }
  return [.token c.pos]

/-- The shapes of several readers, one after the other. -/
def seq : List (Parser (List Shape)) → Parser (List Shape)
  | [] => return []
  | p :: ps => do
    let shapes ← p
    return shapes ++ (← seq ps)

/-- A single shape as a list. -/
def one (p : Parser Shape) : Parser (List Shape) := do return [← p]

/-- A node of a kind around what `body` reads, begun anew or at a checkpoint.  In the latter case
the first shapes that `body` returns are those of what was built since then. -/
def nodeSince (since : Option Checkpoint) (kind : NodeKind) (body : Parser (List Shape)) :
    Parser Shape := do
  let id ← start since kind
  let children ← body
  finish
  return .node id kind children

/-- A node of a kind around what `body` reads. -/
abbrev node (kind : NodeKind) (body : Parser (List Shape)) : Parser Shape :=
  nodeSince none kind body

/-- A node of a kind around what was built since a checkpoint and what `body` reads. -/
abbrev nodeAt (cp : Checkpoint) (kind : NodeKind) (body : Parser (List Shape)) : Parser Shape :=
  nodeSince (some cp) kind body

/-- What `body` reads when the parser stands where `at?` says, and nothing otherwise. -/
def whenAt (at? : Cursor → Bool) (body : Parser (List Shape)) : Parser (List Shape) := do
  if at? (← get) then body else return []

/-- At most `fuel` rounds of `manyWhile`. -/
def manyWhileFuel (at? : Cursor → Bool) (body : Parser (List Shape)) :
    Nat → Parser (List Shape)
  | 0 => tooDeep
  | fuel + 1 => do
    if at? (← get) then
      let shapes ← body
      return shapes ++ (← manyWhileFuel at? body fuel)
    else return []

/-- What `body` reads again and again while `at?` holds.  Every round takes a token, so there are no
more rounds than tokens. -/
def manyWhile (at? : Cursor → Bool) (body : Parser (List Shape)) : Parser (List Shape) := do
  manyWhileFuel at? body ((← get).tokens.size + 1)

/-- At most `fuel` rounds of `grow`. -/
def growFuel (step? : Cursor → Option (Shape → Parser Shape)) :
    Nat → Shape → Parser Shape
  | 0, _ => tooDeep
  | fuel + 1, shape => do
    match step? (← get) with
    | some wrap => growFuel step? fuel (← wrap shape)
    | none => return shape

/-- A shape wrapped again and again while `step?` offers a wrapping.  Every round takes a token. -/
def grow (step? : Cursor → Option (Shape → Parser Shape)) (shape : Shape) : Parser Shape := do
  growFuel step? ((← get).tokens.size + 1) shape

/-- At most `fuel` rounds of `commaItems`. -/
def commaItemsFuel (close : String) (item : Parser (List Shape)) : Nat → Parser (List Shape)
  | 0 => tooDeep
  | fuel + 1 => do
    if (← get).atMark close then return []
    else
      let shapes ← item
      if (← get).atMark "," then
        let comma ← bump
        return shapes ++ comma ++ (← commaItemsFuel close item fuel)
      else return shapes

/-- Items with commas between them up to a closing mark; a comma may stand before that mark. -/
def commaItems (close : String) (item : Parser (List Shape)) : Parser (List Shape) := do
  commaItemsFuel close item ((← get).tokens.size + 1)

/-! ## Tokens that have to be there

Rules are written with a few parsers that fail when the token ahead is not the one that has to be
there. -/

def expect (mark : String) : Parser (List Shape) := do
  if (← get).atMark mark then bump else unexpected ("'" ++ mark ++ "'")

def expectWord (word : String) : Parser (List Shape) := do
  if (← get).atWord word then bump else unexpected ("'" ++ word ++ "'")

def expectIdentifier : Parser (List Shape) := do
  if (← get).atIdentifier then bump else unexpected "identifier"

/-- A list that has at least one item, with commas between the items. -/
def commaSeparated (item : Parser (List Shape)) : Parser (List Shape) :=
  seq [item, manyWhile (·.atMark ",") (seq [bump, item])]

/-- Everything up to a closing brace, which is read too. -/
def untilBrace (item : Parser (List Shape)) : Parser (List Shape) :=
  seq [manyWhile (fun c => !c.atMark "\x7d") (choose fun c =>
      if c.atEnd then unexpected "'\x7d'" else item),
    bump]

end Parser

/-- What the rules of the grammar can ask for at a place of the source. -/
inductive Nonterminal where
  /-- A type; `nullable` tells whether a question mark behind it belongs to it. -/
  | type (nullable : Bool)
  | expression
  /-- An operand of the operator that replaces null. -/
  | coalesce
  | unary
  /-- The operators behind an operand, which was built since a checkpoint. -/
  | operators (checkpoint : Checkpoint) (operand : Shape)
  | initializer
  | pattern
  | statement
  | block
  | member
  | namespaceMember
deriving Repr

/-- How a rule reads the parts that it consists of. -/
abbrev Rules := Nonterminal → Parser Shape

end CodeMend
