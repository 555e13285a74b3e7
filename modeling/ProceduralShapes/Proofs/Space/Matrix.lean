import Mathlib.Data.Fintype.BigOperators
import Mathlib.LinearAlgebra.Matrix.Notation
import ProceduralShapes.Proofs.Space.Affine

/-!
# Transforms as matrices

The rows of a transform are the rows of a matrix. Products, transposes and the product with a row
and a column are those of matrices, so that the laws of matrices apply to them.
-/

namespace ProceduralShapes

open Matrix

def Row.entries {α : Type} (r : Row α) : Fin 4 → α := ![r.x, r.y, r.z, r.w]

namespace Transform

def toMatrix {α : Type} (t : Transform α) : Matrix (Fin 4) (Fin 4) α :=
  .of ![t.row0.entries, t.row1.entries, t.row2.entries, t.row3.entries]

theorem toMatrix_transpose {α : Type} (t : Transform α) : t.transpose.toMatrix = t.toMatrixᵀ := by
  ext i j
  fin_cases i <;> fin_cases j <;> simp [toMatrix, transpose, Row.entries]

theorem entry_lt (i j : Fin 4) : 4 * i.val + j.val < 16 := by
  omega

theorem toMatrix_ofRows {α : Type} (v : Vector α 16) (i j : Fin 4) :
    (ofRows v).toMatrix i j = v.get ⟨4 * i + j, entry_lt i j⟩ := by
  fin_cases i <;> fin_cases j <;> rfl

section Exact
open Exact
variable {K : Type} [Field K]

theorem sumProducts_eq (r c : Row K) : r.sumProducts c = r.entries ⬝ᵥ c.entries := by
  rw [Row.sumProducts, zero_add, dotProduct, Fin.sum_univ_four]
  rfl

theorem entries_rowTimes (r : Row K) (t : Transform K) :
    (rowTimes r t.transpose).entries = r.entries ᵥ* t.toMatrix := by
  ext j
  rw [vecMul, dotProduct, Fin.sum_univ_four]
  fin_cases j <;> rfl

theorem toMatrix_mul (a b : Transform K) : (a * b).toMatrix = a.toMatrix * b.toMatrix := by
  refine funext fun i => ?_
  rw [Matrix.mul_apply_eq_vecMul]
  fin_cases i
  · exact entries_rowTimes a.row0 b
  · exact entries_rowTimes a.row1 b
  · exact entries_rowTimes a.row2 b
  · exact entries_rowTimes a.row3 b

theorem bilinear_eq (t : Transform K) (row column : Row K) :
    t.bilinear row column = row.entries ⬝ᵥ (t.toMatrix *ᵥ column.entries) := by
  rw [bilinear, sumProducts_eq]
  refine congrArg (row.entries ⬝ᵥ ·) (funext fun i => ?_)
  fin_cases i
  · exact sumProducts_eq t.row0 column
  · exact sumProducts_eq t.row1 column
  · exact sumProducts_eq t.row2 column
  · exact sumProducts_eq t.row3 column

end Exact

end Transform

end ProceduralShapes
