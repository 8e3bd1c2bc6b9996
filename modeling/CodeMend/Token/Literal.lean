/-!
# CodeMend — the extent of literals

Each function counts the characters that a piece of a literal takes at the front of a text; none
means that the piece is not there or not closed.  String bodies are counted through their closing
quote, interpolation holes through their closing brace.
-/

namespace CodeMend.Literal

/-- How many characters at the front satisfy a condition. -/
def countWhile (p : Char → Bool) : List Char → Nat
  | [] => 0
  | c :: cs => if p c then countWhile p cs + 1 else 0

def isLineBreak (c : Char) : Bool := c = '\n' || c = '\r'

/-! ## Strings and characters

Every scanner answers how many characters of the rest belong to the literal, or that it is not
closed. -/

/-- The rest of a plain string.  A backslash takes the character after it along. -/
def plainBody : List Char → Option Nat
  | [] => none
  | c :: cs =>
    if c = '\\' then
      match cs with
      | [] => none
      | _ :: rest => (plainBody rest).map (· + 2)
    else if c = '"' then some 1
    else if isLineBreak c then none
    else (plainBody cs).map (· + 1)

/-- The rest of a verbatim string.  A quote inside is written twice. -/
def verbatimBody : List Char → Option Nat
  | [] => none
  | c :: cs =>
    if c = '"' then
      match cs with
      | [] => some 1
      | d :: rest => if d = '"' then (verbatimBody rest).map (· + 2) else some 1
    else (verbatimBody cs).map (· + 1)

/-- The rest of a character literal.  A quote right at the front does not close it. -/
def characterBody (first : Bool) : List Char → Option Nat
  | [] => none
  | c :: cs =>
    if c = '\\' then
      match cs with
      | [] => none
      | _ :: rest => (characterBody false rest).map (· + 2)
    else if c = '\'' && !first then some 1
    else if isLineBreak c then none
    else (characterBody false cs).map (· + 1)

/-- The rest of an interpolation hole at a depth of nested braces.  Strings and characters inside
are skipped; a line break ends the attempt. -/
def hole (depth : Nat) : List Char → Option Nat
  | [] => none
  | c :: cs =>
    if c = '\x7b' then (hole (depth + 1) cs).map (· + 1)
    else if c = '\x7d' then
      match depth with
      | 0 => some 1
      | d + 1 => (hole d cs).map (· + 1)
    else if c = '"' then do
      let n ← plainBody cs
      let m ← hole depth (cs.drop n)
      return 1 + n + m
    -- In a verbatim string a backslash is a character like others.
    else if c = '@' ∧ cs.head? = some '"' then do
      let n ← verbatimBody cs.tail
      let m ← hole depth (cs.tail.drop n)
      return 2 + n + m
    else if c = '\'' then do
      let n ← characterBody true cs
      let m ← hole depth (cs.drop n)
      return 1 + n + m
    else if isLineBreak c then none
    else (hole depth cs).map (· + 1)
termination_by cs => cs.length
decreasing_by all_goals (simp only [List.length_drop, List.length_tail, List.length_cons]; omega)

/-- The rest of an interpolated string.  A brace that is text is written twice. -/
def interpolatedBody (verbatim : Bool) : List Char → Option Nat
  | [] => none
  | c :: cs =>
    if c = '\\' && !verbatim then (interpolatedBody verbatim cs.tail).map (· + 2)
    else if c = '"' then
      if verbatim && cs.head? = some '"' then (interpolatedBody verbatim cs.tail).map (· + 2)
      else some 1
    -- Only a verbatim string goes on over the end of a line.
    else if isLineBreak c && !verbatim then none
    else if c = '\x7b' then
      if cs.head? = some '\x7b' then (interpolatedBody verbatim cs.tail).map (· + 2)
      else do
        let n ← hole 0 cs
        let m ← interpolatedBody verbatim (cs.drop n)
        return 1 + n + m
    else (interpolatedBody verbatim cs).map (· + 1)
termination_by cs => cs.length
decreasing_by all_goals (simp only [List.length_drop, List.length_tail, List.length_cons]; omega)

/-- A string literal whose first character is given: how many characters follow that one. -/
def string (first : Char) (cs : List Char) : Option Nat :=
  match first, cs with
  | '$', '@' :: '"' :: body => (interpolatedBody true body).map (· + 2)
  | '@', '$' :: '"' :: body => (interpolatedBody true body).map (· + 2)
  | '$', '"' :: body => (interpolatedBody false body).map (· + 1)
  | '@', '"' :: body => (verbatimBody body).map (· + 1)
  | '"', body => plainBody body
  | _, _ => none

/-! ## Numbers

A number takes digits, then what makes it real, then a suffix. -/

def isDigitOrBar (c : Char) : Bool := c.isDigit || c = '_'

def isHexOrBar (c : Char) : Bool :=
  c.isDigit || ('a' ≤ c && c ≤ 'f') || ('A' ≤ c && c ≤ 'F') || c = '_'

def isBinaryOrBar (c : Char) : Bool := c = '0' || c = '1' || c = '_'

def isIntegerSuffix (c : Char) : Bool := c = 'u' || c = 'U' || c = 'l' || c = 'L'

def isRealSuffix (c : Char) : Bool :=
  c = 'f' || c = 'F' || c = 'd' || c = 'D' || c = 'm' || c = 'M'

/-- At most `limit` suffix characters. -/
def suffix (limit : Nat) (p : Char → Bool) (cs : List Char) : Nat := countWhile p (cs.take limit)

/-- A number in base 16 or 2, after its leading zero. -/
def prefixed? (cs : List Char) : Option Nat :=
  match cs with
  | x :: rest =>
    let n :=
      if x = 'x' || x = 'X' then countWhile isHexOrBar rest
      else if x = 'b' || x = 'B' then countWhile isBinaryOrBar rest
      else 0
    if n = 0 then none else some (1 + n + suffix 2 isIntegerSuffix (rest.drop n))
  | [] => none

/-- A point and at least one digit, or nothing. -/
def fraction (cs : List Char) : Nat :=
  match cs with
  | '.' :: rest =>
    let n := countWhile isDigitOrBar rest
    if n = 0 then 0 else 1 + n
  | _ => 0

/-- A power of ten, or nothing. -/
def exponent (cs : List Char) : Nat :=
  match cs with
  | e :: rest =>
    if e = 'e' || e = 'E' then
      let sign := match rest with
        | s :: _ => if s = '+' || s = '-' then 1 else 0
        | [] => 0
      let n := countWhile isDigitOrBar (rest.drop sign)
      if n = 0 then 0 else 1 + sign + n
    else 0
  | [] => 0

/-- A decimal number that starts with a digit: how many characters follow that one. -/
def decimal (cs : List Char) : Nat :=
  let whole := countWhile isDigitOrBar cs
  let part := fraction (cs.drop whole)
  let power := exponent (cs.drop (whole + part))
  let n := whole + part + power
  n + suffix 2 (fun c => isIntegerSuffix c || isRealSuffix c) (cs.drop n)

/-- A decimal number that starts with its point: how many characters follow that one. -/
def pointDecimal (cs : List Char) : Nat :=
  let part := countWhile isDigitOrBar cs
  let power := exponent (cs.drop part)
  let n := part + power
  n + suffix 1 isRealSuffix (cs.drop n)

/-- A decimal number is real when it has a point, a power of ten or a real suffix. -/
def isReal (text : List Char) : Bool :=
  text.any (fun c => c = '.' || c = 'e' || c = 'E') || text.getLast?.any isRealSuffix

end CodeMend.Literal
