import ScaraArm.Axis.Homing
import ScaraArm.Axis.InPlace
import ScaraArm.Axis.Mask
import ScaraArm.Axis.Settings
import ScaraArm.Binary64.Exact
import ScaraArm.Binary64.Scalar
import ScaraArm.Command.Grammar
import ScaraArm.Command.Help
import ScaraArm.Command.Run
import ScaraArm.Command.Task
import ScaraArm.Config.Basic
import ScaraArm.Config.Decode
import ScaraArm.Config.Encode
import ScaraArm.Config.Load
import ScaraArm.Config.Validate
import ScaraArm.Decimal.Basic
import ScaraArm.Decimal.Numeral
import ScaraArm.Decimal.Read
import ScaraArm.Decimal.Shortest
import ScaraArm.Decimal.Stepwise
import ScaraArm.Decimal.Text
import ScaraArm.Document.Json
import ScaraArm.Document.JsonText
import ScaraArm.Document.Toml
import ScaraArm.Document.Toml.Number
import ScaraArm.Document.Toml.Scalar
import ScaraArm.Document.Toml.Table
import ScaraArm.Document.Value
import ScaraArm.Failure
import ScaraArm.Geometry
import ScaraArm.Kinematics
import ScaraArm.Line.Planner
import ScaraArm.Line.Segmenter
import ScaraArm.Line.Session
import ScaraArm.Machine
import ScaraArm.Main
import ScaraArm.PerAxis
import ScaraArm.Position
import ScaraArm.Proofs.Axis.Homing
import ScaraArm.Proofs.Axis.Masks
import ScaraArm.Proofs.Axis.Quantisation
import ScaraArm.Proofs.Binary64.Arithmetic
import ScaraArm.Proofs.Binary64.Bounded
import ScaraArm.Proofs.Binary64.Canonical
import ScaraArm.Proofs.Binary64.Counting
import ScaraArm.Proofs.Binary64.Disc
import ScaraArm.Proofs.Binary64.Identity
import ScaraArm.Proofs.Binary64.Inverse
import ScaraArm.Proofs.Binary64.Nearest
import ScaraArm.Proofs.Binary64.Quotient
import ScaraArm.Proofs.Binary64.Rounding
import ScaraArm.Proofs.Binary64.Steps
import ScaraArm.Proofs.Binary64.Value
import ScaraArm.Proofs.Command.Lines
import ScaraArm.Proofs.Config.Checked
import ScaraArm.Proofs.Config.Detection
import ScaraArm.Proofs.Config.Fields
import ScaraArm.Proofs.Config.Machines
import ScaraArm.Proofs.Config.Revisions
import ScaraArm.Proofs.Decimal.Interval
import ScaraArm.Proofs.Decimal.ReadBack
import ScaraArm.Proofs.Decimal.Shortest
import ScaraArm.Proofs.Document.JsonRoundTrip
import ScaraArm.Proofs.Document.Keys
import ScaraArm.Proofs.Document.Numerals
import ScaraArm.Proofs.Document.Overlap
import ScaraArm.Proofs.Document.Quotes
import ScaraArm.Proofs.Document.Reals
import ScaraArm.Proofs.Line.Branches
import ScaraArm.Proofs.Line.Cancellation
import ScaraArm.Proofs.Line.Capped
import ScaraArm.Proofs.Line.Carried
import ScaraArm.Proofs.Line.Collected
import ScaraArm.Proofs.Line.Counts
import ScaraArm.Proofs.Line.Outstanding
import ScaraArm.Proofs.Line.Pulls
import ScaraArm.Proofs.Line.RunLaw
import ScaraArm.Proofs.Line.Standing
import ScaraArm.Proofs.Line.Waypoints
import ScaraArm.Proofs.Real.Bearing
import ScaraArm.Proofs.Real.Homing
import ScaraArm.Proofs.Real.Mirror
import ScaraArm.Proofs.Real.Pieces
import ScaraArm.Proofs.Real.Pose
import ScaraArm.Proofs.Real.Reach
import ScaraArm.Proofs.Real.RoundTrip
import ScaraArm.Proofs.Real.Scalar
import ScaraArm.Proofs.Real.Swing
import ScaraArm.Scalar
import ScaraArm.Status
