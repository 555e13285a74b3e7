import ProceduralShapes.Mesh.Basic

/-!
# Primitive solids

The box and the cylinder that placements scale and move. Both are centred on the origin and
fit a cube of side one, with faces oriented outwards.
-/

namespace ProceduralShapes.Mesh

variable {α : Type} [Scalar α]

def half : α := 1 / (2 : Nat)

/-! ### Box -/

/-- Half a unit below zero for an even number, above it for an odd one. -/
def boxSide (i : Nat) : α := if i % 2 = 0 then -half else half

/-- The corners of the box: the binary digits of a corner's number give its sides. -/
def boxCorner (i : Nat) : Point α := ⟨boxSide i, boxSide (i / 2), boxSide (i / 4)⟩

/-- Two triangles on each side, in the order −z, +z, −y, +y, −x, +x. -/
def boxFaces : Array Face :=
  #[⟨0, 2, 1⟩, ⟨1, 2, 3⟩, ⟨4, 5, 6⟩, ⟨5, 7, 6⟩, ⟨0, 1, 4⟩, ⟨1, 5, 4⟩,
    ⟨2, 6, 3⟩, ⟨3, 6, 7⟩, ⟨0, 4, 2⟩, ⟨2, 4, 6⟩, ⟨1, 3, 5⟩, ⟨3, 7, 5⟩]

def unitBox : Mesh α := ⟨Array.ofFn fun i : Fin 8 => boxCorner i, boxFaces⟩

/-! ### Cylinder -/

section Cylinder
variable [Trig α]

/-- Corner `j` of a ring of `n` corners at height `y`. -/
def ringCorner (n : Nat) (y : α) (j : Nat) : Point α :=
  let angle : α := j * tau / n
  ⟨half * cos angle, y, half * sin angle⟩

/-- The lower ring, the upper ring, and the centres of the two caps. -/
def cylinderPositions (n : Nat) : List (Point α) :=
  (List.range n).map (ringCorner n (-half)) ++ (List.range n).map (ringCorner n half) ++
    [⟨0, -half, 0⟩, ⟨0, half, 0⟩]

end Cylinder

/-- The faces between corner `j` and the next: two on the wall, one on each cap. -/
def cylinderSector (n j : Nat) : List Face :=
  let next := (j + 1) % n
  [Face.ofIndices j (n + j) next, Face.ofIndices next (n + j) (n + next),
   Face.ofIndices (2 * n) j next, Face.ofIndices (2 * n + 1) (n + next) (n + j)]

def cylinderFaces (n : Nat) : List Face := (List.range n).flatMap (cylinderSector n)

/-- The capped cylinder along y, with at least three corners to a ring. -/
def unitCylinder [Trig α] (segments : Nat) : Except Fault (Mesh α) :=
  let n := max segments 3
  if vertexLimit < 2 * n + 2 then .error (.bufferTooLarge (2 * n + 2))
  else if faceLimit < 4 * n then .error (.bufferTooLarge (4 * n))
  else .ok ⟨(cylinderPositions n).toArray, (cylinderFaces n).toArray⟩

end ProceduralShapes.Mesh
