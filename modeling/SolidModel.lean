import SolidModel.Decimal.Layout
import SolidModel.Body.Scad
import SolidModel.Connector.Align
import SolidModel.Json.Decode
import SolidModel.Json.Reader
import SolidModel.Json.Writer
import SolidModel.Connector.Json
import SolidModel.Transformation.Json
import SolidModel.Body.Json
import SolidModel.Assembly.Basic
import SolidModel.Assembly.Edit
import SolidModel.Assembly.Reach
import SolidModel.Body.Scad.Json
import SolidModel.Assembly.Adopt
import SolidModel.Assembly.Body
import SolidModel.Assembly.Compose
import SolidModel.Assembly.Create
import SolidModel.Assembly.Equality
import SolidModel.ReferenceFrame
import SolidModel.Proofs.Assembly.Links
import SolidModel.Proofs.Assembly.Search
import SolidModel.Proofs.Assembly.WellFormed
import SolidModel.Proofs.Assembly.Duplicate
import SolidModel.Proofs.Assembly.Yields
import SolidModel.Proofs.Assembly.Copying
import SolidModel.Proofs.Assembly.Checks
import SolidModel.Proofs.Assembly.Depth
import SolidModel.Proofs.Assembly.Reachable
import SolidModel.Proofs.Assembly.Alike
import SolidModel.Proofs.Assembly.CopyBody
import SolidModel.Proofs.Assembly.CopyPlacement
import SolidModel.Proofs.Assembly.CopySize
import SolidModel.Proofs.Assembly.Leaves
import SolidModel.Proofs.Connector.Alignment
import SolidModel.Proofs.Connector.Reaching
import SolidModel.Proofs.Connector.Opposite
import SolidModel.Proofs.Assembly.Refusal
import SolidModel.Proofs.Assembly.Lineage
import SolidModel.Proofs.Assembly.Moving
import SolidModel.Proofs.Body.Matches
import SolidModel.Proofs.Body.Calls
import SolidModel.Proofs.Body.Scad
import SolidModel.Proofs.Decimal.Numeral
import SolidModel.Proofs.Decimal.Layout
import SolidModel.Proofs.Json.Echo
import SolidModel.Proofs.Json.Reading
import SolidModel.Proofs.Json.Lexing
import SolidModel.Proofs.Body.Echo
import SolidModel.Proofs.Json.Decode
import SolidModel.Proofs.Body.RoundTrip
import SolidModel.Proofs.Assembly.Guards
import SolidModel.Proofs.Assembly.Changes
import SolidModel.Proofs.Assembly.Growth
import SolidModel.Proofs.Pairing
import SolidModel.Proofs.Assembly.Comparison
import SolidModel.Proofs.Assembly.Amount
import SolidModel.Proofs.Assembly.CopyLinks
import SolidModel.Proofs.Assembly.Missing
import SolidModel.Proofs.Assembly.ComposeCopies
import SolidModel.Proofs.Assembly.Composing
import SolidModel.Proofs.Body.Accepted
import SolidModel.Proofs.Body.Construction
import SolidModel.Proofs.Assembly.Order
import SolidModel.Proofs.Assembly.Coloring
import SolidModel.Proofs.Connector.Replay
import SolidModel.Proofs.Vec3.Failures
import SolidModel.Proofs.Connector.Failures
import SolidModel.Proofs.Connector.Valid
import SolidModel.Proofs.ReferenceFrame.Course
import SolidModel.Proofs.Assembly.Malformed
import SolidModel.Proofs.Decimal.Rounded
import SolidModel.Proofs.Body.Nesting
