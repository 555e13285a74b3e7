import ProceduralShapes.Mesh.Grid
import ProceduralShapes.Surface.Basic

/-!
# Tessellation

Sampling a position function on a grid and stitching the samples. Angles run over `theta`
from zero to half a turn and over `phi` around a full one; the unit square is sampled with
both of its ends. A grid without slices or sectors gives the empty mesh.
-/

namespace ProceduralShapes

/-- What happens at the two ends of `theta`. -/
inductive Topology
  | openEnded
  | closed
deriving DecidableEq, Repr

namespace Topology

def rowCount : Topology → Nat → Nat
  | .openEnded, slices => slices + 1
  | .closed, slices => slices

def stitch : Topology → Stitch
  | .openEnded => .tube
  | .closed => .ring

end Topology

/-- How a built-in surface meets itself at the two ends of `theta`. -/
def Surface.topology (s : Surface) : Topology :=
  if s.isDoublyPeriodic then .closed else .openEnded

namespace Mesh

variable {α : Type} [Scalar α]

/-- A grid of `rows` rows and `columns` columns, vertex `i * columns + j` at `sample i j`. -/
def ofGrid (stitch : Stitch) (rows columns : Nat) (sample : Nat → Nat → Point α) :
    Except Fault (Mesh α) :=
  if vertexLimit < rows * columns then .error (.bufferTooLarge (rows * columns))
  else (Grid.faces stitch rows columns).map fun faces =>
    ⟨Array.ofFn fun k : Fin (rows * columns) => sample (k / columns) (k % columns), faces⟩

/-- The samples at `theta = i · π / slices` and `phi = j · 2π / sectors`. -/
def tessellate [Trig α] (slices sectors : Nat) (f : Position α) (topology : Topology) :
    Except Fault (Mesh α) :=
  if slices = 0 ∨ sectors = 0 then .ok empty
  else ofGrid topology.stitch (topology.rowCount slices) sectors fun i j =>
    f (i * pi / slices) (j * tau / sectors)

def tessellateAll [Trig α] (slices sectors : Nat) (fs : List (Position α)) :
    Except Fault (Mesh α) :=
  fs.mapM (fun f => tessellate slices sectors f .openEnded) >>= concat

/-- The samples at `u = i / uSegments` and `v = j / vSegments`, rows along `u`. -/
def unitGrid (uSegments vSegments : Nat) (f : Position α) : Except Fault (Mesh α) :=
  if uSegments = 0 ∨ vSegments = 0 then .ok empty
  else ofGrid .planar (uSegments + 1) (vSegments + 1) fun i j => f (i / uSegments) (j / vSegments)

def unitGrids (uSegments vSegments : Nat) (fs : List (Position α)) : Except Fault (Mesh α) :=
  fs.mapM (unitGrid uSegments vSegments) >>= concat

end Mesh

end ProceduralShapes
