import ProceduralShapes.Fault
import ProceduralShapes.Space.Transform

/-!
# Triangle meshes

A mesh is a list of vertex positions and a list of faces, each naming three vertices by their
places in that list. Positions need not be distinct. Joining two meshes shifts the corners of
the second past the vertices of the first. A corner moved beyond 32 bits is a fault where
arithmetic is checked, and comes round where it is not.
-/

namespace ProceduralShapes

variable {α : Type}

/-- A triangle, by the numbers of its corners in the order of its orientation. -/
structure Face where
  a : UInt32
  b : UInt32
  c : UInt32
deriving DecidableEq, Repr

structure Mesh (α : Type) where
  positions : Array (Point α) := #[]
  faces : Array Face := #[]
deriving BEq

namespace Face

/-- A face from plain numbers, kept to 32 bits. -/
def ofIndices (a b c : Nat) : Face := ⟨a.toUInt32, b.toUInt32, c.toUInt32⟩

def corners (f : Face) : List UInt32 := [f.a, f.b, f.c]

def within (n : Nat) (f : Face) : Bool := f.a.toNat < n && f.b.toNat < n && f.c.toNat < n

/-- Every corner can be moved up by `offset`. -/
def shiftable (offset : UInt32) (f : Face) : Bool := f.within (UInt32.size - offset.toNat)

def shift (offset : UInt32) (f : Face) : Face := ⟨f.a + offset, f.b + offset, f.c + offset⟩

def proper (f : Face) : Bool := f.a != f.b && f.b != f.c && f.a != f.c

end Face

namespace Mesh

def empty : Mesh α := {}

instance : Inhabited (Mesh α) := ⟨empty⟩

def withCapacity (vertices faces : Nat) : Except Fault (Mesh α) :=
  if vertexLimit < vertices then .error (.bufferTooLarge vertices)
  else if faceLimit < faces then .error (.bufferTooLarge faces)
  else .ok empty

def vertexCount (m : Mesh α) : Nat := m.positions.size

def triangleCount (m : Mesh α) : Nat := m.faces.size

def isEmpty (m : Mesh α) : Bool := m.positions.isEmpty && m.faces.isEmpty

def point? (m : Mesh α) (i : Nat) : Option (Point α) := m.positions[i]?

/-! ### Validity -/

inductive Defect
  | nonFiniteVertex
  | danglingCorner
deriving DecidableEq, Repr

def Defect.message : Defect → String
  | .nonFiniteVertex => "mesh has invalid vertex coordinates (NaN/Inf)"
  | .danglingCorner => "mesh has out-of-bounds vertex indices"

def hasNonFiniteVertex [Finiteness α] (m : Mesh α) : Bool := m.positions.any fun p => !p.isFinite

def cornersInRange (m : Mesh α) : Bool := m.faces.all (·.within m.vertexCount)

def validate [Finiteness α] (m : Mesh α) : Except Defect Unit :=
  if m.hasNonFiniteVertex then .error .nonFiniteVertex
  else if m.cornersInRange then .ok ()
  else .error .danglingCorner

/-! ### Joining and moving -/

/-- The buffers of the second mesh behind those of the first, with corners counted round. -/
def joined (m n : Mesh α) : Mesh α :=
  match m with
  | ⟨positions, faces⟩ =>
    let offset := positions.size.toUInt32
    ⟨positions ++ n.positions, faces ++ n.faces.map (·.shift offset)⟩

/-- Joins two meshes, with checked arithmetic. -/
def append (m n : Mesh α) : Except Fault (Mesh α) :=
  if n.faces.all (·.shiftable m.vertexCount.toUInt32) then .ok (m.joined n)
  else .error .cornerTooLarge

def concat (meshes : List (Mesh α)) : Except Fault (Mesh α) := meshes.foldlM append empty

def transformed [Scalar α] (m : Mesh α) (t : Transform α) : Mesh α :=
  { m with positions := m.positions.map t.apply }

/-! ### Flat buffers -/

def flatPositions (m : Mesh α) : Array α := m.positions.flatMap fun p => #[p.x, p.y, p.z]

def flatCorners (m : Mesh α) : Array UInt32 := m.faces.flatMap fun f => #[f.a, f.b, f.c]

end Mesh

end ProceduralShapes
