import SceneCulling.Diagnostics.Console
import SceneCulling.Diagnostics.Monitor
import SceneCulling.Painting.Culler
import SceneCulling.Proofs.Diagnostics.Chatter
import SceneCulling.Proofs.Diagnostics.PlainText
import SceneCulling.Proofs.Geometry.AxisMaps
import SceneCulling.Proofs.Geometry.ClipPlanes
import SceneCulling.Proofs.Geometry.Hull
import SceneCulling.Proofs.Geometry.Inverse
import SceneCulling.Proofs.Geometry.Projections
import SceneCulling.Proofs.Geometry.Sameness
import SceneCulling.Proofs.Painting.Accounting
import SceneCulling.Proofs.Painting.Culling
import SceneCulling.Proofs.Painting.EffectLog
import SceneCulling.Proofs.Painting.EyePlane
import SceneCulling.Proofs.Painting.Frames
import SceneCulling.Proofs.Painting.Locality
import SceneCulling.Proofs.Painting.Margins
import SceneCulling.Proofs.Painting.Marks
import SceneCulling.Proofs.Painting.Measure
import SceneCulling.Proofs.Painting.OwnVolume
import SceneCulling.Proofs.Painting.Padding
import SceneCulling.Proofs.Painting.PixelCover
import SceneCulling.Proofs.Painting.PixelNesting
import SceneCulling.Proofs.Painting.SiblingOrder
import SceneCulling.Proofs.Painting.Unbounded
import SceneCulling.Proofs.Painting.Verdict
import SceneCulling.Proofs.Program.Refusals
import SceneCulling.Proofs.Program.Settings
import SceneCulling.Proofs.Scalar.Binary32
import SceneCulling.Proofs.Scalar.Ranked
import SceneCulling.Proofs.Scene.ChangeOfSpace
import SceneCulling.Proofs.Scene.Composition
import SceneCulling.Proofs.Scene.Reachable
import SceneCulling.Proofs.Scene.Requests
import SceneCulling.Proofs.Scene.Transforms
import SceneCulling.Proofs.Stage.Pixels
import SceneCulling.Proofs.Stage.Window
import SceneCulling.Proofs.Volume.Accumulation
import SceneCulling.Proofs.Volume.AxisMoves
import SceneCulling.Proofs.Volume.Classification
import SceneCulling.Proofs.Volume.Completion
import SceneCulling.Proofs.Volume.Corners
import SceneCulling.Proofs.Volume.Flat
import SceneCulling.Proofs.Volume.Handling
import SceneCulling.Proofs.Volume.Pool
import SceneCulling.Proofs.Volume.Realignment
import SceneCulling.Scalar
import SceneCulling.Scalar.Binary32
import SceneCulling.Scene.Change
