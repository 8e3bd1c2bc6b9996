import CodeMend.Text.Span
import CodeMend.Token.Trivia

/-!
# CodeMend — tokens

A token is a word, literal or mark of a C# source together with the trivia around it.
-/

namespace CodeMend

inductive TokenKind where
  | identifier
  | keyword
  | integerLiteral
  | realLiteral
  | stringLiteral
  | characterLiteral
  | punctuation
  | endOfFile
deriving DecidableEq, Repr

structure Token where
  kind : TokenKind
  text : String
  /-- The byte offset of the text in the source. -/
  offset : Nat
  leading : List Trivia
  trailing : List Trivia
deriving DecidableEq, Repr

namespace Token

/-- The offset after the text. -/
def stop (t : Token) : Nat := t.offset + t.text.utf8ByteSize

/-- The span of the text. -/
def span (t : Token) : Span := ⟨t.offset, t.stop⟩

/-- The offset at which the trivia before the text starts. -/
def fullStart (t : Token) : Nat := t.offset - Trivia.width t.leading

/-- The offset at which the trivia after the text ends. -/
def fullStop (t : Token) : Nat := t.stop + Trivia.width t.trailing

/-- The span of the text with its trivia. -/
def fullSpan (t : Token) : Span := ⟨t.fullStart, t.fullStop⟩

def isKeyword (t : Token) (word : String) : Bool := t.kind == .keyword && t.text == word

def isMark (t : Token) (mark : String) : Bool := t.kind == .punctuation && t.text == mark

def isIdentifier (t : Token) : Bool := t.kind == .identifier

/-- The token is a word that is a keyword in some places only. -/
def isContextual (t : Token) (word : String) : Bool := t.kind == .identifier && t.text == word

def isLiteral (t : Token) : Bool :=
  t.kind == .integerLiteral || t.kind == .realLiteral || t.kind == .stringLiteral ||
    t.kind == .characterLiteral

/-- The text, without the mark that lets an identifier be spelled like a keyword. -/
def valueText (t : Token) : String :=
  match t.kind, t.text.toList with
  | .identifier, '@' :: rest => String.ofList rest
  | _, _ => t.text

/-- The text with its trivia. -/
def render (t : Token) : String := Trivia.render t.leading ++ t.text ++ Trivia.render t.trailing

/-- The source text of a list of tokens. -/
def renderAll (ts : List Token) : String := String.join (ts.map render)

end Token

/-- The reserved words. -/
def reservedWords : List String := [
  "abstract", "as", "base", "bool", "break", "byte", "case", "catch", "char", "checked",
  "class", "const", "continue", "decimal", "default", "delegate", "do", "double", "else",
  "enum", "event", "explicit", "extern", "false", "finally", "fixed", "float", "for",
  "foreach", "goto", "if", "implicit", "in", "int", "interface", "internal", "is", "lock",
  "long", "namespace", "new", "null", "object", "operator", "out", "override", "params",
  "private", "protected", "public", "readonly", "ref", "return", "sbyte", "sealed", "short",
  "sizeof", "stackalloc", "static", "string", "struct", "switch", "this", "throw", "true",
  "try", "typeof", "uint", "ulong", "unchecked", "unsafe", "ushort", "using", "virtual",
  "void", "volatile", "while"]

/-- The marks of several characters, the longest first.  A closing angle bracket stands alone except
before an equals sign, so that nested type arguments close one at a time. -/
def compoundMarks : List (List Char) :=
  ["??=", "<<=", "=>", "==", "!=", "<=", ">=", "&&", "||", "++", "--", "+=", "-=", "*=",
    "/=", "%=", "&=", "|=", "^=", "<<", "??", "::", "->", ".."].map String.toList

/-- The marks of one character. -/
def singleMarks : List Char := [
  '\x7b', '\x7d', '(', ')', '[', ']', ';', ',', '.', ':', '?', '+', '-', '*', '/', '%', '&', '|',
  '^', '!', '~', '=', '<', '>']

end CodeMend
