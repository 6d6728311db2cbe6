import SqlTemplate.Argument
import SqlTemplate.Proofs.Query.Placeholders
import SqlTemplate.Proofs.Query.Shape
import SqlTemplate.Proofs.Statement.Plain
import SqlTemplate.Proofs.Statement.References
import SqlTemplate.Proofs.Token.Tiling
import SqlTemplate.Proofs.Token.Unmarked
import SqlTemplate.Registry
import SqlTemplate.Proofs.Query.Escaped
import SqlTemplate.Proofs.Node.Uses
import SqlTemplate.Proofs.Query.Keys
import SqlTemplate.Proofs.Registry.Order
import SqlTemplate.Proofs.Source.Header
import SqlTemplate.Proofs.Source.Composed
import SqlTemplate.Proofs.Source.Faults
import SqlTemplate.Proofs.Node.Refused
import SqlTemplate.Proofs.Query.Comments
import SqlTemplate.Proofs.Query.Blanks
import SqlTemplate.Proofs.Node.Meetings
import SqlTemplate.Proofs.Query.KeyOrder
import SqlTemplate.Proofs.Query.Mismatch
import SqlTemplate.Proofs.Token.LookBehind
import SqlTemplate.Proofs.Token.BlankRuns
import SqlTemplate.Proofs.Token.Swallowed
import SqlTemplate.Proofs.Data.Arguments
import SqlTemplate.Proofs.Statement.InPlace
import SqlTemplate.Proofs.Text.Runs
