import ProceduralShapes.Mesh.Basic
import ProceduralShapes.Space.Tolerance
import Std.Data.HashMap

/-!
# Welding

Welding keeps the first vertex of every cluster and sends each later one within the tolerance
to it. Kept vertices are filed by the cell of a cubic lattice they lie in, the lattice being
as wide as the tolerance, so only the cells around a vertex are searched. A vertex with a
coordinate that is not finite is kept and never joined. Kept vertices are numbered by words of
32 bits, which begin again behind the last of them.
-/

namespace ProceduralShapes

variable {α : Type}

/-- The number of the lattice cell that a coordinate lies in: the whole number at or below it,
kept to 64 bits. -/
class CellIndex (α : Type) where
  cellIndex : α → Int64

instance : CellIndex Float := ⟨fun x => x.floor.toInt64⟩

structure Cell where
  x : Int64
  y : Int64
  z : Int64
deriving DecidableEq, Hashable, Repr

namespace Cell

/-- The cell of a point in a lattice with `density` cells to the unit. -/
def ofPoint? [Scalar α] [Finiteness α] [CellIndex α] (density : α) (p : Point α) : Option Cell :=
  if p.isFinite then
    some ⟨CellIndex.cellIndex (p.x * density), CellIndex.cellIndex (p.y * density),
      CellIndex.cellIndex (p.z * density)⟩
  else none

/-- The cell number before this one; the lattice ends at the least. -/
def before (i : Int64) : Int64 := if i = Int64.minValue then i else i - 1

/-- The cell number after this one; the lattice ends at the greatest. -/
def after (i : Int64) : Int64 := if i = Int64.maxValue then i else i + 1

theorem toInt_before (i : Int64) : (before i).toInt = max Int64.minValue.toInt (i.toInt - 1) := by
  have hlo := i.le_toInt
  have hhi := i.toInt_lt
  have hmin : Int64.minValue.toInt = -9223372036854775808 := rfl
  unfold before
  split
  · subst i
    decide
  · rename_i h
    have hne : i.toInt ≠ Int64.minValue.toInt := fun e => h (Int64.toInt_inj.1 e)
    rw [Int64.toInt_sub, show (1 : Int64).toInt = 1 from rfl,
      Int.bmod_eq_of_le (by omega) (by omega)]
    omega

theorem toInt_after (i : Int64) : (after i).toInt = min Int64.maxValue.toInt (i.toInt + 1) := by
  have hlo := i.le_toInt
  have hhi := i.toInt_lt
  have hmax : Int64.maxValue.toInt = 9223372036854775807 := rfl
  unfold after
  split
  · subst i
    decide
  · rename_i h
    have hne : i.toInt ≠ Int64.maxValue.toInt := fun e => h (Int64.toInt_inj.1 e)
    rw [Int64.toInt_add, show (1 : Int64).toInt = 1 from rfl,
      Int.bmod_eq_of_le (by omega) (by omega)]
    omega

def around (i : Int64) : List Int64 := [before i, i, after i]

/-- The cells that touch a cell, itself among them. -/
def neighbours (c : Cell) : List Cell :=
  let ys := around c.y
  let zs := around c.z
  (around c.x).flatMap fun x => ys.flatMap fun y => zs.map fun z => ⟨x, y, z⟩

end Cell

namespace Mesh

/-- The state of welding after some vertices: those kept, the kept vertex that each stands
for, and the kept vertices filed by cell. -/
structure Welding (α : Type) where
  kept : Array (Point α) := #[]
  remap : Array UInt32 := #[]
  buckets : Std.HashMap Cell (Array UInt32) := {}

namespace Welding

def bucket (w : Welding α) (c : Cell) : Array UInt32 := w.buckets.getD c #[]

section Near
variable [Scalar α] [LE α] [DecidableLE α]

def isNear (t : Tolerance α) (w : Welding α) (p : Point α) (i : UInt32) : Bool :=
  match w.kept[i.toNat]? with
  | some q => t.nearPoint q p
  | none => false

/-- The first kept vertex near a point, cell by cell. -/
def find? (t : Tolerance α) (w : Welding α) (c : Cell) (p : Point α) : Option UInt32 :=
  c.neighbours.findSome? fun d => (w.bucket d).find? (w.isNear t p)

end Near

def join (w : Welding α) (i : UInt32) : Welding α :=
  match w with
  | ⟨kept, remap, buckets⟩ => ⟨kept, remap.push i, buckets⟩

def keep (w : Welding α) (p : Point α) : Welding α :=
  match w with
  | ⟨kept, remap, buckets⟩ =>
    let i := kept.size.toUInt32
    ⟨kept.push p, remap.push i, buckets⟩

def keepIn (w : Welding α) (c : Cell) (p : Point α) : Welding α :=
  match w with
  | ⟨kept, remap, buckets⟩ =>
    let i := kept.size.toUInt32
    ⟨kept.push p, remap.push i, buckets.alter c fun b => some ((b.getD #[]).push i)⟩

def add [Scalar α] [LE α] [DecidableLE α] [Finiteness α] [CellIndex α] (t : Tolerance α)
    (w : Welding α) (p : Point α) : Welding α :=
  match Cell.ofPoint? (1 / t.eps) p with
  | none => w.keep p
  | some c =>
    match w.find? t c p with
    | some i => w.join i
    | none => w.keepIn c p

/-- The face with each corner replaced by the kept vertex it stands for. -/
def renumber (w : Welding α) (f : Face) : Face :=
  ⟨w.remap.getD f.a.toNat 0, w.remap.getD f.b.toNat 0, w.remap.getD f.c.toNat 0⟩

/-- The welded mesh. Faces that lose a corner disappear. -/
def mesh (w : Welding α) (faces : Array Face) : Mesh α :=
  ⟨w.kept, (faces.map w.renumber).filter Face.proper⟩

end Welding

section Weld
variable [Scalar α] [LE α] [DecidableLE α] [LT α] [DecidableLT α] [Finiteness α] [CellIndex α]

def weldable (t : Tolerance α) : Prop := isFinite t.eps ∧ 0 < t.eps

instance (t : Tolerance α) : Decidable (weldable t) := inferInstanceAs (Decidable (_ ∧ _))

def welding (t : Tolerance α) (m : Mesh α) : Welding α := m.positions.foldl (Welding.add t) {}

/-- The mesh with near vertices merged, and how many were merged away. -/
def weld (t : Tolerance α) (m : Mesh α) : Except Fault (Mesh α × Nat) :=
  if weldable t then
    if m.cornersInRange then
      let w := m.welding t
      .ok (w.mesh m.faces, m.vertexCount - w.kept.size)
    else .error .danglingCorner
  else .ok (m, 0)

end Weld

end Mesh

end ProceduralShapes
