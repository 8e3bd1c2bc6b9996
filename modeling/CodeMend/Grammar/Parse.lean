import CodeMend.Grammar.Declarations

/-!
# CodeMend — parsing

The rules of the grammar refer to each other through `Nonterminal`.  `Grammar.rule` is one step, all
of whose parts are read by the rules it is given, and `Grammar.rulesOfDepth` ties the steps together
up to a depth of nesting that no source of the given length exceeds.

`parse` turns a source into its tree or into the error that stands first.
-/

namespace CodeMend

namespace Grammar

/-- The rule of a nonterminal over the rules for its parts. -/
def rule (rules : Rules) : Nonterminal → Parser Shape
  | .type nullable => type rules nullable
  | .expression => expression rules
  | .coalesce => coalesce rules
  | .unary => unary rules
  | .operators cp operand => operators rules cp operand
  | .initializer => initializer rules
  | .pattern => pattern rules
  | .statement => statement rules
  | .block => block rules
  | .member => member rules
  | .namespaceMember => namespaceMember rules

/-- The rules for sources that nest at most `depth` deep. -/
def rulesOfDepth : Nat → Rules
  | 0 => fun _ => Parser.tooDeep
  | depth + 1 => rule (rulesOfDepth depth)

/-- How deep the rules can nest over a number of tokens: few of them lie between two tokens. -/
def depthFor (tokens : Nat) : Nat := 8 * tokens + 8

end Grammar

/-- Read a list of tokens: the shape of the file, and the tree as it was built. -/
def parseTokens (tokens : Array Token) : Except (ParseFault × Nat) (Shape × Cursor) :=
  (Grammar.compilationUnit (Grammar.rulesOfDepth (Grammar.depthFor tokens.size))).run
    ⟨tokens, 0, .ofTokens tokens.size⟩

/-- The tree of a source. -/
def parse (source : String) : Except ParseError Tree :=
  match tokenize source with
  | .error e => .error (ParseError.ofFault source (.lex e.fault) e.offset)
  | .ok tokens =>
    match parseTokens tokens.toArray with
    | .error (fault, offset) => .error (ParseError.ofFault source fault offset)
    | .ok (_, c) => .ok (c.builder.finish source tokens.toArray)

end CodeMend
