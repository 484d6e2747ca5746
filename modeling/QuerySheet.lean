import QuerySheet.CellCache.Open
import QuerySheet.CommandLine.Needs
import QuerySheet.Main
import QuerySheet.Settings.Load
import QuerySheet.Sheet.Edit
import QuerySheet.Sql.Statement
import QuerySheet.Proofs.Sheet.Consistency
import QuerySheet.Proofs.Sheet.Links
import QuerySheet.Proofs.Sql.Aliases
import QuerySheet.Proofs.Sql.Conjuncts
import QuerySheet.Proofs.Sql.Introduced
import QuerySheet.Proofs.Sql.Marks
import QuerySheet.Proofs.Sql.Approximation
import QuerySheet.Proofs.Sheet.Batch
import QuerySheet.Proofs.Sheet.Moves
import QuerySheet.Proofs.Sheet.Saved
import QuerySheet.Proofs.Sheet.Suspension
import QuerySheet.Proofs.Sheet.Numbered
import QuerySheet.Proofs.Sheet.Immediate
import QuerySheet.Proofs.Sheet.Batching
import QuerySheet.Proofs.Sheet.Visits
import QuerySheet.Proofs.Sql.Endless
import QuerySheet.Proofs.Sql.Causes
import QuerySheet.Proofs.Sql.ParamTypes
import QuerySheet.Proofs.Sheet.Declarations
import QuerySheet.Proofs.Sql.Comments
import QuerySheet.Proofs.Sql.Grouping
import QuerySheet.Proofs.Sql.Equality
import QuerySheet.Proofs.Query.RoundTrip
import QuerySheet.Proofs.Sheet.Invalidation
import QuerySheet.Proofs.Sheet.Announcements
import QuerySheet.Proofs.Sql.Ways
import QuerySheet.Proofs.Sheet.Refusals
import QuerySheet.Proofs.Sql.Layout
import QuerySheet.Proofs.Sql.ImplicitId
import QuerySheet.Proofs.Sql.Falsy
import QuerySheet.Proofs.Sql.Combined
import QuerySheet.Proofs.Sql.Enforced
import QuerySheet.Proofs.Sql.Blocks
import QuerySheet.Proofs.Sheet.Collected
import QuerySheet.Proofs.Sql.DateLiterals
import QuerySheet.Proofs.Sql.Naming
import QuerySheet.Proofs.Sheet.History
import QuerySheet.Proofs.Sql.TextLiteral
import QuerySheet.Proofs.Sql.Coherence
import QuerySheet.Proofs.Sql.Trail
