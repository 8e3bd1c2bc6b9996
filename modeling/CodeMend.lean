import CodeMend.Main
import CodeMend.Json.Parse
import CodeMend.Report.Reading
import CodeMend.Proofs.Text.NetEdits
import CodeMend.Proofs.Flow.Answers
import CodeMend.Proofs.Flow.WrittenInside
import CodeMend.Proofs.Binding.Passing
import CodeMend.Proofs.Binding.References
import CodeMend.Proofs.Token.Lossless
import CodeMend.Proofs.Tree.WellFormed
import CodeMend.Proofs.Tree.Order
import CodeMend.Proofs.Tree.Views
import CodeMend.Proofs.Patch.Spans
import CodeMend.Proofs.Patch.ListItems
import CodeMend.Proofs.Patch.OutParameter
import CodeMend.Proofs.Fix.Execution
import CodeMend.Proofs.Fix.Batch
import CodeMend.Proofs.Tree.Modifiers
import CodeMend.Proofs.Token.Rewording
import CodeMend.Proofs.Fix.Modifiers
import CodeMend.Proofs.Effects.Phrases
import CodeMend.Proofs.Effects.Runs
import CodeMend.Proofs.Effects.Merging
import CodeMend.Proofs.Text.Sorting
import CodeMend.Proofs.Text.DiffLines
import CodeMend.Proofs.Text.DiffHunks
import CodeMend.Proofs.Text.UnifiedDiff
import CodeMend.Proofs.Token.Literals
import CodeMend.Proofs.Token.Seams
import CodeMend.Proofs.Token.Reading
import CodeMend.Proofs.Token.Tidying
import CodeMend.Proofs.Plan.Resolution
import CodeMend.Proofs.Plan.Arguments
import CodeMend.Proofs.Fix.Termination
import CodeMend.Proofs.Text.Batches
import CodeMend.Proofs.Flow.Fixpoint
import CodeMend.Proofs.Grammar.ScannedTypes
import CodeMend.Proofs.Grammar.Total
import CodeMend.Proofs.Tree.Precedence
import CodeMend.Proofs.Plan.Selection
import CodeMend.Proofs.Model.Hiding
import CodeMend.Proofs.Token.Holes
import CodeMend.Proofs.Binding.ArithmeticTypes
import CodeMend.Proofs.Binding.ScopedLookup
import CodeMend.Proofs.Tree.Arguments
import CodeMend.Proofs.Patch.Remarks
import CodeMend.Proofs.Effects.Deferral
import CodeMend.Proofs.Fix.Reporting
import CodeMend.Proofs.Text.Locations
import CodeMend.Proofs.Token.Settled
import CodeMend.Proofs.Binding.TypeIdentity
import CodeMend.Proofs.Binding.BaseCalls
import CodeMend.Proofs.Tree.Lookup
import CodeMend.Proofs.Token.Regular
import CodeMend.Proofs.Token.Neighbours
import CodeMend.Proofs.Plan.Mentions
import CodeMend.Proofs.Text.Offsets
import CodeMend.Proofs.Fix.Regions
import CodeMend.Proofs.Flow.Conditions
import CodeMend.Proofs.Token.TriviaSplit
import CodeMend.Proofs.Model.Distances
import CodeMend.Proofs.Binding.Conversions
import CodeMend.Proofs.Model.Traversal
