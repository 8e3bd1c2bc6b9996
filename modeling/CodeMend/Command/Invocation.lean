/-!
# CodeMend — command lines

A command line names a command; options stand before or behind the command's name.  The value of an
option follows a `=` or is the next argument, which then must not look like an option.

* **`Invocation.ofArguments?`** — what a command line asks for; none when it makes no sense.
-/

namespace CodeMend

/-- How a response is written. -/
inductive OutputFormat where
  | json
  /-- A summary for a reader. -/
  | text
  /-- The diff of the changes; a command without changes writes its summary. -/
  | diff
deriving DecidableEq, Repr

def OutputFormat.ofName? : String → Option OutputFormat
  | "json" => some .json
  | "text" => some .text
  | "diff" => some .diff
  | _ => none

/-- What a command is asked to do. -/
inductive Request where
  | analyze (rules : List String)
  | fix (place : Option String) (rules : List String) (dryRun : Bool)
  | rules
  | version
deriving DecidableEq, Repr

/-- A command line that makes sense. -/
structure Invocation where
  request : Request
  /-- The root of the workspace, if it is not the current directory. -/
  workspace : Option String
  format : OutputFormat
deriving DecidableEq, Repr

/-- The options that a command knows. -/
structure OptionNames where
  /-- Those with a value. -/
  valued : List String
  /-- Those without. -/
  flags : List String

namespace OptionNames

/-- The options that every command knows. -/
def shared : OptionNames := ⟨["workspace", "log-level", "format"], []⟩

def analyze : OptionNames := ⟨"rule" :: shared.valued, []⟩

def fix : OptionNames := ⟨"at" :: analyze.valued, ["all", "dry-run"]⟩

end OptionNames

/-- The options given to a command, with an empty value for a flag. -/
abbrev GivenOptions := List (String × String)

namespace GivenOptions

/-- The values of an option, in order. -/
def values (options : GivenOptions) (name : String) : List String :=
  (options.filter fun o => o.1 == name).map Prod.snd

/-- The value of an option that must not be repeated: none inside when it is not given. -/
def single? (options : GivenOptions) (name : String) : Option (Option String) :=
  match options.values name with
  | [] => some none
  | [value] => some (some value)
  | _ => none

/-- The value of an option that must not be repeated, read by `read`. -/
def read? {α : Type} (options : GivenOptions) (name : String) (read : String → Option α) :
    Option (Option α) := do
  match ← options.single? name with
  | some value => return some (← read value)
  | none => return none

end GivenOptions

namespace Invocation

/-- The name of an option, and the value behind a `=`. -/
def option? (argument : String) : Option (String × Option String) :=
  match argument.toList with
  | '-' :: '-' :: c :: cs =>
    let name := (c :: cs).takeWhile (· != '=')
    match (c :: cs).dropWhile (· != '=') with
    | _ :: value => some (String.ofList name, some (String.ofList value))
    | [] => some (String.ofList name, none)
  | _ => none

/-- An argument by itself can be a value. -/
def isValue (argument : String) : Bool :=
  argument = "-" || argument.toList.head? ≠ some '-'

/-- The options at the front of the arguments, and the arguments behind them. -/
def readOptions? (names : OptionNames) : List String → Option (GivenOptions × List String)
  | [] => some ([], [])
  | argument :: rest =>
    match option? argument with
    | none => some ([], argument :: rest)
    | some (name, some value) =>
      if names.valued.contains name then do
        let (options, rest) ← readOptions? names rest
        return ((name, value) :: options, rest)
      else none
    -- The value may stand in the next argument, if that is not an option itself.
    | some (name, none) =>
      if names.flags.contains name then do
        let (options, rest) ← readOptions? names rest
        return ((name, "") :: options, rest)
      else if names.valued.contains name then
        match rest with
        | value :: rest =>
          if isValue value then do
            let (options, rest) ← readOptions? names rest
            return ((name, value) :: options, rest)
          else none
        | [] => none
      else some ([], argument :: rest)

/-- The options that every command knows, as they are given on one side of the command's name. -/
structure Shared where
  workspace : Option String
  format : Option OutputFormat

/-- The shared options.  A level for logging is checked, and that is all it does. -/
def Shared.ofOptions? (options : GivenOptions) : Option Shared := do
  let workspace ← options.read? "workspace" fun w => if w.isEmpty then none else some w
  let _ ← options.read? "log-level" fun l =>
    if ["trace", "debug", "info", "warn", "error"].contains l then some l else none
  let format ← options.read? "format" OutputFormat.ofName?
  return ⟨workspace, format⟩

/-- The request to fix something: one finding or all of them, and not both. -/
def fixRequest? (options : GivenOptions) : Option Request := do
  let place ← options.single? "at"
  let all ← options.single? "all"
  let dryRun ← options.single? "dry-run"
  if place.isSome == all.isSome then none
  return .fix place (options.values "rule") dryRun.isSome

/-- The command of a name, with the options behind it. -/
def command? (name : String) (arguments : List String) : Option (Request × GivenOptions) := do
  match name with
  | "analyze" =>
    let options ← all? .analyze
    return (.analyze (options.values "rule"), options)
  | "fix" =>
    let options ← all? .fix
    return (← fixRequest? options, options)
  | "rules" => return (.rules, ← all? .shared)
  | _ => none
where
  /-- The options that the arguments consist of; a closing `--` does not count. -/
  all? (names : OptionNames) : Option GivenOptions := do
    let (options, rest) ← readOptions? names arguments
    if rest.isEmpty || rest == ["--"] then return options else none

/-- What a command line asks for.  Of a shared option on both sides of the command's name, the one
behind it counts. -/
def ofArguments? (arguments : List String) : Option Invocation := do
  let (options, rest) ← readOptions? .shared arguments
  let before ← Shared.ofOptions? options
  match rest with
  | [] => none
  | name :: rest =>
    if name = "--version" || name.startsWith "-V" then return ⟨.version, none, .json⟩
    let (request, options) ← command? name rest
    let behind ← Shared.ofOptions? options
    return {
      request
      -- What stands behind the command counts more than what stands in front.
      workspace := behind.workspace.or before.workspace
      format := (behind.format.or before.format).getD .json }

end Invocation

end CodeMend
