import CodeMend.Token.Lexer

/-!
# CodeMend — holes of interpolated strings

An interpolated string is a single token.  The expressions in its holes are found again by scanning
the text of the literal: `holes` tells the byte range of each one, without alignment and format, and
`namesInHoles` lists the names in them.
-/

namespace CodeMend.Interpolation

/-- A name in a hole. -/
structure HoleName where
  /-- The byte offset within the literal. -/
  offset : Nat
  name : String
  /-- A point stands in front, so that it is the name of a member. -/
  afterPoint : Bool
  /-- An opening parenthesis follows. -/
  called : Bool
deriving DecidableEq, Repr

/-- The literal has holes. -/
def isInterpolated (literal : List Char) : Bool :=
  match literal with
  | '$' :: _ => true
  | '@' :: '$' :: _ => true
  | _ => false

/-- The literal is verbatim too. -/
def isVerbatim (literal : List Char) : Bool :=
  match literal with
  | '$' :: '@' :: _ => true
  | '@' :: '$' :: _ => true
  | _ => false

/-- How many characters a string or character takes through its closing quote, or to the end. -/
def quotedLength (quote : Char) : List Char → Nat
  | [] => 0
  | c :: cs =>
    if c = '\\' then
      match cs with
      | [] => 1
      | _ :: rest => quotedLength quote rest + 2
    else if c = quote then 1
    else quotedLength quote cs + 1

/-- Walk through a hole from byte `pos` on.  `stop` is where its expression ended, when a comma or
colon outside of brackets was seen.  The answer is the end of the expression and the number of
characters through the closing brace. -/
def holeEnd (depth : Nat) (stop : Option Nat) (pos : Nat) : List Char → Nat × Nat
  | [] => (stop.getD pos, 0)
  | c :: cs =>
    if c = '(' ∨ c = '[' ∨ c = '\x7b' then
      let (stop, n) := holeEnd (depth + 1) stop (pos + 1) cs
      (stop, n + 1)
    else if c = ')' ∨ c = ']' then
      let (stop, n) := holeEnd (depth - 1) stop (pos + 1) cs
      (stop, n + 1)
    else if c = '\x7d' then
      match depth with
      | 0 => (stop.getD pos, 1)
      | d + 1 =>
        let (stop, n) := holeEnd d stop (pos + 1) cs
        (stop, n + 1)
    else if (c = ',' ∨ c = ':') ∧ depth = 0 ∧ stop = none then
      -- Two colons qualify a name and are a part of the expression.
      if c = ':' ∧ cs.head? = some ':' then
        let (stop, n) := holeEnd depth stop (pos + 2) cs.tail
        (stop, n + 2)
      else
        let (stop, n) := holeEnd depth (some pos) (pos + 1) cs
        (stop, n + 1)
    -- Every literal is skipped as a plain one.
    else if c = '"' ∨ c = '\'' then
      let k := quotedLength c cs
      let (stop, n) := holeEnd depth stop (pos + 1 + byteLength (cs.take k)) (cs.drop k)
      (stop, n + k + 1)
    else
      let (stop, n) := holeEnd depth stop (pos + c.utf8Size) cs
      (stop, n + 1)
termination_by cs => cs.length
decreasing_by all_goals (simp only [List.length_drop, List.length_tail, List.length_cons]; omega)

/-- The holes of the body of a literal from byte `pos` on. -/
def holesFrom (verbatim : Bool) (pos : Nat) : List Char → List (Nat × Nat)
  | [] => []
  | c :: cs =>
    if c = '\\' && !verbatim then
      holesFrom verbatim (pos + 1 + byteLength (cs.take 1)) cs.tail
    else if c = '"' then
      if verbatim && cs.head? = some '"' then holesFrom verbatim (pos + 2) cs.tail else []
    else if c = '\x7b' then
      if cs.head? = some '\x7b' then holesFrom verbatim (pos + 2) cs.tail
      else
        let (stop, n) := holeEnd 0 none (pos + 1) cs
        let rest := holesFrom verbatim (pos + 1 + byteLength (cs.take n)) (cs.drop n)
        -- A hole with nothing in it has no expression.
        if stop > pos + 1 then (pos + 1, stop) :: rest else rest
    else holesFrom verbatim (pos + c.utf8Size) cs
termination_by cs => cs.length
decreasing_by all_goals (simp only [List.length_drop, List.length_tail, List.length_cons]; omega)

/-- The byte ranges of the expressions in the holes of a literal, in order. -/
def holes (literal : String) : List (Nat × Nat) :=
  let cs := literal.toList
  if isInterpolated cs then
    match cs.span (· ≠ '"') with
    | (front, _ :: body) => holesFrom (isVerbatim cs) (byteLength front + 1) body
    | (_, []) => []
  else []

/-- The names among the tokens of a hole that starts at `base`; `previous` is the token before. -/
def namesOfTokens (base : Nat) : Option Token → List Token → List HoleName
  | _, [] => []
  | previous, t :: rest =>
    let later := namesOfTokens base (some t) rest
    if t.isIdentifier then
      { offset := base + t.offset
        name := t.valueText
        afterPoint := previous.any fun p => p.isMark "." || p.isMark "?."
        called := rest.head?.any fun n => n.isMark "(" } :: later
    else later

/-- The names in the holes of a literal, in order.  A hole that does not split into tokens has
none. -/
def namesInHoles (literal : String) : List HoleName :=
  (holes literal).flatMap fun (start, stop) =>
    match extract? literal start stop with
    | none => []
    | some text =>
      match tokenize text with
      | .ok tokens => namesOfTokens start none tokens
      | .error _ => []

end CodeMend.Interpolation
