import ProceduralShapes.Mesh.Basic

/-!
# Grids of vertices

A grid numbers its vertices row by row. Two neighbouring rows are stitched column by column,
each quad giving two triangles of the same orientation. A stitch says whether the last column
is joined to the first, and whether the last row is joined to the first.
-/

namespace ProceduralShapes

structure Stitch where
  /-- Join the last column of every row back to the first. -/
  wrapColumns : Bool
  /-- Join the last row to the first. -/
  closeRows : Bool
deriving DecidableEq, Repr

namespace Stitch

/-- Columns run round, rows end: a tube. -/
def tube : Stitch := ⟨true, false⟩

/-- Columns and rows run round: a ring. -/
def ring : Stitch := ⟨true, true⟩

/-- Nothing runs round. -/
def planar : Stitch := ⟨false, false⟩

/-- The number of columns that have a neighbour on their right, in rows of `len` vertices. -/
def columnPairs (s : Stitch) (len : Nat) : Nat := if s.wrapColumns then len else len - 1

def rowPairs (s : Stitch) (rows : Nat) : Nat := rows - 1 + if s.closeRows then 1 else 0

end Stitch

namespace Grid

/-- The two triangles between column `j` and its right neighbour, in the rows that start at
vertices `a` and `b`. -/
def quad (len a b j : Nat) : List Face :=
  let next := (j + 1) % len
  [Face.ofIndices (a + j) (a + next) (b + j), Face.ofIndices (a + next) (b + next) (b + j)]

/-- The strip between the rows that start at vertices `a` and `b`. -/
def strip (s : Stitch) (len a b : Nat) : List Face :=
  (List.range (s.columnPairs len)).flatMap (quad len a b)

def strips (s : Stitch) (rows len : Nat) : List Face :=
  (List.range (rows - 1)).flatMap (fun i => strip s len (i * len) ((i + 1) * len)) ++
    if s.closeRows then strip s len ((rows - 1) * len) 0 else []

def faces (s : Stitch) (rows len : Nat) : Except Fault (Array Face) :=
  if rows = 0 ∨ len = 0 then .ok #[]
  else
    let count := s.rowPairs rows * s.columnPairs len * 2
    if faceLimit < count then .error (.bufferTooLarge count)
    else .ok (strips s rows len).toArray

end Grid

end ProceduralShapes
