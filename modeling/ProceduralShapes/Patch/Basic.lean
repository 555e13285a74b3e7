import ProceduralShapes.Space.Transform
import ProceduralShapes.Surface.Basic

/-!
# Bicubic patches

A patch is given by sixteen control points and a cubic basis `B`. Each coordinate of the
control net, as a matrix `P` of four rows, becomes the coefficient matrix `B · P · Bᵗ`, and
the patch at `(u, v)` is the product of the coefficients with the powers of `u` and `v`.
-/

namespace ProceduralShapes

variable {α : Type} [Scalar α]

inductive Basis
  | bezier
  | bspline
  | catmullRom
  | hermite
deriving DecidableEq, Repr

/-- The matrix of a basis: column `i` holds the weight of control point `i` by falling powers. -/
def Basis.matrix : Basis → Transform α
  | .bezier =>
    ⟨⟨-1, (3 : Nat), -((3 : Nat) : α), 1⟩, ⟨(3 : Nat), -((6 : Nat) : α), (3 : Nat), 0⟩,
     ⟨-((3 : Nat) : α), (3 : Nat), 0, 0⟩, ⟨1, 0, 0, 0⟩⟩
  | .bspline =>
    let half : α := 1 / (2 : Nat)
    let sixth : α := 1 / (6 : Nat)
    ⟨⟨-sixth, half, -half, sixth⟩, ⟨half, -1, half, 0⟩, ⟨-half, 0, half, 0⟩,
     ⟨sixth, (4 : Nat) * sixth, sixth, 0⟩⟩
  | .catmullRom =>
    let half : α := 1 / (2 : Nat)
    let threeHalves : α := (3 : Nat) / (2 : Nat)
    let fiveHalves : α := (5 : Nat) / (2 : Nat)
    ⟨⟨-half, threeHalves, -threeHalves, half⟩, ⟨1, -fiveHalves, (2 : Nat), -half⟩,
     ⟨-half, 0, half, 0⟩, ⟨0, 1, 0, 0⟩⟩
  | .hermite =>
    ⟨⟨(2 : Nat), -((2 : Nat) : α), 1, 1⟩, ⟨-((3 : Nat) : α), (3 : Nat), -((2 : Nat) : α), -1⟩,
     ⟨0, 0, 1, 0⟩, ⟨1, 0, 0, 0⟩⟩

/-- The control points of a patch, four rows of four. -/
abbrev Net (α : Type) := Vector (Point α) 16

structure Patch (α : Type) where
  x : Transform α
  y : Transform α
  z : Transform α
deriving BEq

namespace Patch

def coefficients (basis : Basis) (axis : Vector α 16) : Transform α :=
  basis.matrix * Transform.ofRows axis * basis.matrix.transpose

/-- The patch over a net whose points are first moved by `t`. -/
def ofNet (net : Net α) (t : Transform α) (basis : Basis) : Patch α :=
  let moved := net.map t.apply
  ⟨coefficients basis (moved.map (·.x)), coefficients basis (moved.map (·.y)),
   coefficients basis (moved.map (·.z))⟩

/-- The powers of a parameter, from the third down. -/
def powers (u : α) : Row α := ⟨u * u * u, u * u, u, 1⟩

def pointAt (p : Patch α) : Position α := fun u v =>
  let row := powers u
  let column := powers v
  ⟨p.x.bilinear row column, p.y.bilinear row column, p.z.bilinear row column⟩

end Patch

end ProceduralShapes
