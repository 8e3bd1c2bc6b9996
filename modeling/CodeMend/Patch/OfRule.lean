import CodeMend.Patch.Conversion
import CodeMend.Patch.DuplicateCall
import CodeMend.Patch.OutParameter
import CodeMend.Patch.RefModifier

/-!
# CodeMend — the patches of each rule

What the fix of a rule does to the node of its finding, and to the calls of the method that the node
declares.  There are no patches when the node no longer has the form that the fix needs.
-/

namespace CodeMend.Rule

/-- The patches of the node that a finding is about; `parameters` are the indices of the affected
parameters. -/
def declarationPatches? (r : Rule) (t : Tree) (n : NodeId) (parameters : List Nat) :
    Option (List Patch) :=
  match r with
  | .unneededRef => do
    return [← Patch.deleteToken? t (← Patch.parameterModifier? t n (← parameters.head?))]
  | .refAsOut => do
    return [Patch.toOut t (← Patch.parameterModifier? t n (← parameters.head?))]
  | .duplicateCall => Patch.mergeCalls? t n
  | .redundantConversion => Patch.unwrapArgument? t n
  | .outAsResult => Patch.returnOne? t n parameters
  | .outsAsTuple => Patch.returnTuple? t n parameters

/-- The patches of a call of the changed method; `positions` are those of the arguments for the
affected parameters. -/
def callPatches? (r : Rule) (t : Tree) (invocation : NodeId) (positions : List Nat) :
    Option (List Patch) :=
  match r with
  | .unneededRef => do
    return [← Patch.deleteToken? t (← Patch.argumentModifier? t invocation (← positions.head?))]
  | .refAsOut => do
    return [Patch.toOut t (← Patch.argumentModifier? t invocation (← positions.head?))]
  | .duplicateCall | .redundantConversion => none
  | .outAsResult => Patch.assignResult? t invocation positions (String.intercalate ", ")
  | .outsAsTuple => Patch.assignResult? t invocation positions Patch.tupled

end CodeMend.Rule
