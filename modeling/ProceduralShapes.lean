import ProceduralShapes.Space.Tolerance
import ProceduralShapes.Mesh.Primitive
import ProceduralShapes.Mesh.Weld
import ProceduralShapes.Surface.Tessellation
import ProceduralShapes.Patch.Basic
import ProceduralShapes.Decimal.Literal
import ProceduralShapes.Decimal.Shortest
import ProceduralShapes.Scene
import ProceduralShapes.Grammar.Spec
import ProceduralShapes.Rib.Reader
import ProceduralShapes.Random.ChaCha
import ProceduralShapes.Grammar.Basic
import ProceduralShapes.Grammar.Evaluation
import ProceduralShapes.Markup.Event
import ProceduralShapes.Markup.Reference
import ProceduralShapes.Markup.Attribute
import ProceduralShapes.Grammar.Document
import ProceduralShapes.Grammar.Library
import ProceduralShapes.Grammar.Reader
import ProceduralShapes.Engine.Basic
import ProceduralShapes.Engine.Call
import ProceduralShapes.Cli.Command
import ProceduralShapes.Cli.Host
import ProceduralShapes.Cli.Perform
import ProceduralShapes.Cli.Session
import ProceduralShapes.Main
import ProceduralShapes.Proofs.Grammar.Machine
import ProceduralShapes.Proofs.Grammar.Recursion
import ProceduralShapes.Proofs.Grammar.RunLength
import ProceduralShapes.Proofs.Mesh.Lattice
import ProceduralShapes.Proofs.Mesh.Weld
import ProceduralShapes.Proofs.Exact
import ProceduralShapes.Proofs.Mesh.FirstFit
import ProceduralShapes.Proofs.Grammar.Motion
import ProceduralShapes.Proofs.Mesh.Cluster
import ProceduralShapes.Proofs.Mesh.GridFaces
import ProceduralShapes.Proofs.Fallible
import ProceduralShapes.Proofs.Grammar.Placement
import ProceduralShapes.Proofs.Rib.History
import ProceduralShapes.Proofs.Rib.Concatenation
import ProceduralShapes.Proofs.Rib.Block
import ProceduralShapes.Proofs.Rib.Comment
import ProceduralShapes.Proofs.Rib.PatchForm
import ProceduralShapes.Proofs.Grammar.Declaration
import ProceduralShapes.Proofs.Grammar.Offer
import ProceduralShapes.Proofs.Grammar.Lockstep
import ProceduralShapes.Proofs.Grammar.Moment
import ProceduralShapes.Proofs.Grammar.StackBound
import ProceduralShapes.Proofs.Reals
import ProceduralShapes.Proofs.Rib.Scope
import ProceduralShapes.Proofs.Affine
import ProceduralShapes.Proofs.Surface.Seam
import ProceduralShapes.Proofs.Mesh.Edges
import ProceduralShapes.Proofs.Mesh.Pinch
import ProceduralShapes.Proofs.Surface.Sphere
import ProceduralShapes.Proofs.Random.Range
import ProceduralShapes.Proofs.Grammar.Closed
import ProceduralShapes.Proofs.Grammar.Shapes
import ProceduralShapes.Proofs.Library
import ProceduralShapes.Proofs.Mesh.Join
import ProceduralShapes.Proofs.Mesh.Concat
import ProceduralShapes.Proofs.Engine.Buffers
import ProceduralShapes.Proofs.Engine.History
import ProceduralShapes.Proofs.Surface.Samples
import ProceduralShapes.Proofs.Mesh.Rim
import ProceduralShapes.Proofs.Scene
import ProceduralShapes.Proofs.Mesh.Reweld
import ProceduralShapes.Proofs.Grammar.Lineage
import ProceduralShapes.Proofs.Grammar.Census
import ProceduralShapes.Proofs.Text.Words
import ProceduralShapes.Proofs.Grammar.Sentence
import ProceduralShapes.Proofs.Rib.Layout
import ProceduralShapes.Proofs.Grammar.Shares
import ProceduralShapes.Proofs.Grammar.Forced
import ProceduralShapes.Proofs.Grammar.Notice
import ProceduralShapes.Proofs.Space.Matrix
import ProceduralShapes.Proofs.Patch.Weight
import ProceduralShapes.Proofs.Patch.Bezier
import ProceduralShapes.Proofs.Patch.Placement
import ProceduralShapes.Proofs.Space.Rotation
import ProceduralShapes.Proofs.Mesh.Cylinder
import ProceduralShapes.Proofs.Grammar.Loading
import ProceduralShapes.Proofs.Text.Lines
import ProceduralShapes.Proofs.Text.Numeral
import ProceduralShapes.Proofs.Obj
import ProceduralShapes.Proofs.Cli.Store
import ProceduralShapes.Proofs.Text.Edit
import ProceduralShapes.Proofs.Text.ByteOrder
import ProceduralShapes.Proofs.Grammar.Index
import ProceduralShapes.Proofs.Grammar.Suggestion
