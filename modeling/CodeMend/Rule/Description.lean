import CodeMend.Report.Response
import CodeMend.Rule.Basic

/-!
# CodeMend — descriptions of rules

The fixed texts of each rule and of the fix that it offers.  A message is a template whose places
are filled with the arguments of a finding.
-/

namespace CodeMend

/-- A piece of a message. -/
inductive TemplatePart where
  | text (s : String)
  /-- The place of an argument, counted from zero. -/
  | place (index : Nat)
deriving DecidableEq, Repr

/-- A message with places for arguments. -/
abbrev Template := List TemplatePart

namespace Template

/-- A place as it is written in a pattern. -/
def placeText (index : Nat) : String := "\x7b" ++ toString index ++ "\x7d"

/-- The message with its places written as numbers in braces. -/
def pattern (t : Template) : String :=
  String.join (t.map fun part => match part with
    | .text s => s
    | .place i => placeText i)

/-- The message with arguments at its places; a place without an argument stays as it is written. -/
def fill (t : Template) (arguments : List String) : String :=
  String.join (t.map fun part => match part with
    | .text s => s
    | .place i => arguments.getD i (placeText i))

end Template

namespace Rule

def title : Rule → String
  | unneededRef => "Unnecessary ref modifier"
  | refAsOut => "Ref parameter can be out"
  | duplicateCall => "Duplicate method call in branches"
  | redundantConversion => "Redundant conversion"
  | outAsResult => "Out parameter can be a return value"
  | outsAsTuple => "Out parameters can be a returned tuple"

def message : Rule → Template
  | unneededRef =>
    [.text "Parameter '", .place 0, .text "' is never assigned; the ref modifier is unnecessary"]
  | refAsOut =>
    [.text "Parameter '", .place 0,
      .text "' is always assigned before it is read; use out instead of ref"]
  | duplicateCall => [.text "Both branches call '", .place 0, .text "' with one differing argument"]
  | redundantConversion =>
    [.text "Call to '", .place 0, .text "' is redundant; the argument is already of type '",
      .place 1, .text "'"]
  | outAsResult => [.text "Method '", .place 0, .text "' can return its out parameter"]
  | outsAsTuple =>
    [.text "Method '", .place 0, .text "' can return its out parameters as a tuple"]

def category (_ : Rule) : String := "Usage"

def severity : Rule → Severity
  | unneededRef => .warning
  | _ => .info

def fixTitle : Rule → String
  | unneededRef => "Remove ref modifier"
  | refAsOut => "Convert ref to out"
  | duplicateCall => "Call once with a conditional argument"
  | redundantConversion => "Remove redundant conversion"
  | outAsResult | outsAsTuple => "Convert out parameters to return value"

/-- The key of the fix: fixes with the same key can be applied together. -/
def fixKey : Rule → String
  | unneededRef => "RemoveUnnecessaryRefModifier"
  | refAsOut => "ConvertRefToOutParameter"
  | duplicateCall => "DuplicateMethodCall"
  | redundantConversion => "RedundantConvert"
  | outAsResult | outsAsTuple => "OutParameterToReturn"

/-- Where the rule is described. -/
def helpUri (r : Rule) : String := "https://github.com/acnutech/Analyzers/wiki/" ++ r.id

/-- The description as it is reported. -/
def info (r : Rule) : RuleInfo where
  id := r.id
  title := r.title
  severity := r.severity.name
  category := r.category
  helpUri := r.helpUri

end Rule

end CodeMend
