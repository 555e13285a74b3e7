import Mathlib.LinearAlgebra.Matrix.Determinant.Basic
import Mathlib.LinearAlgebra.Matrix.Trace
import Mathlib.Tactic.LinearCombination
import Mathlib.Tactic.Module
import ProceduralShapes.Proofs.Reals
import ProceduralShapes.Proofs.Space.Matrix

/-!
# Turns about an axis

The turn about a unit axis is a sum of three parts: what the cosine leaves of a vector, what the
sine takes from the cross product of the axis with it, and what makes up for the loss along the axis
(`block_turnAbout`). A few products of the matrices of these parts give the laws of turns
(`turns_about_axis`).
-/

namespace ProceduralShapes

open Matrix

/-! ### Vectors as columns -/

namespace Vec

def entries {α : Type} (v : Vec α) : Fin 3 → α := ![v.x, v.y, v.z]

theorem entries_injective {α : Type} : Function.Injective (entries : Vec α → Fin 3 → α) := by
  intro v w h
  rw [Vec.mk.injEq]
  exact ⟨congrFun h 0, congrFun h 1, congrFun h 2⟩

section Exact
open Exact
variable {K : Type} [Field K]

theorem lengthSquared_eq (a : Vec K) : a.lengthSquared = a.entries ⬝ᵥ a.entries := by
  rw [dotProduct, Fin.sum_univ_three]
  rfl

theorem lengthSquared_unitX : (unitX : Vec K).lengthSquared = 1 := by
  simp [lengthSquared, Vec.dot, unitX]

theorem lengthSquared_unitY : (unitY : Vec K).lengthSquared = 1 := by
  simp [lengthSquared, Vec.dot, unitY]

theorem lengthSquared_unitZ : (unitZ : Vec K).lengthSquared = 1 := by
  simp [lengthSquared, Vec.dot, unitZ]

/- The matrix of the cross product with a vector on the left. -/
def crossMatrix (a : Vec K) : Matrix (Fin 3) (Fin 3) K :=
  !![0, -a.z, a.y; a.z, 0, -a.x; -a.y, a.x, 0]

/- The matrix that takes a vector to its part along a unit vector. -/
def alongMatrix (a : Vec K) : Matrix (Fin 3) (Fin 3) K := vecMulVec a.entries a.entries

theorem transpose_crossMatrix (a : Vec K) : a.crossMatrixᵀ = -a.crossMatrix := by
  ext i j
  fin_cases i <;> fin_cases j <;> simp [crossMatrix]

theorem transpose_alongMatrix (a : Vec K) : a.alongMatrixᵀ = a.alongMatrix :=
  transpose_vecMulVec a.entries a.entries

theorem crossMatrix_mul_alongMatrix (a : Vec K) : a.crossMatrix * a.alongMatrix = 0 := by
  have hself : a.crossMatrix *ᵥ a.entries = 0 := by
    ext i
    fin_cases i <;> simp [crossMatrix, entries, mulVec, dotProduct, Fin.sum_univ_three] <;> ring
  rw [alongMatrix, mul_vecMulVec, hself, zero_vecMulVec]

theorem alongMatrix_mul_crossMatrix (a : Vec K) : a.alongMatrix * a.crossMatrix = 0 := by
  have h := congrArg transpose (crossMatrix_mul_alongMatrix a)
  rw [transpose_mul, transpose_alongMatrix, transpose_crossMatrix, mul_neg, transpose_zero] at h
  exact neg_eq_zero.1 h

theorem alongMatrix_mul_self {a : Vec K} (ha : a.lengthSquared = 1) :
    a.alongMatrix * a.alongMatrix = a.alongMatrix := by
  rw [alongMatrix, vecMulVec_mul_vecMulVec, ← lengthSquared_eq, ha, one_smul]

/- Crossing twice takes a vector to the opposite of its part across the axis. -/
theorem crossMatrix_mul_self {a : Vec K} (ha : a.lengthSquared = 1) :
    a.crossMatrix * a.crossMatrix = a.alongMatrix - 1 := by
  have hany : a.crossMatrix * a.crossMatrix = a.alongMatrix - a.lengthSquared • 1 := by
    ext i j
    fin_cases i <;> fin_cases j <;>
      simp [crossMatrix, alongMatrix, entries, Matrix.mul_apply, Fin.sum_univ_three, lengthSquared,
        Vec.dot] <;> ring
  rw [hany, ha, one_smul]

/- The matrix of the turn about a unit axis. -/
def turnMatrix (a : Vec K) (c s : K) : Matrix (Fin 3) (Fin 3) K :=
  c • 1 + s • a.crossMatrix + (1 - c) • a.alongMatrix

theorem transpose_turnMatrix (a : Vec K) (c s : K) :
    (a.turnMatrix c s)ᵀ = a.turnMatrix c (-s) := by
  simp only [turnMatrix, transpose_add, transpose_smul, transpose_one, transpose_crossMatrix,
    transpose_alongMatrix, smul_neg, neg_smul]

theorem turnMatrix_mul {a : Vec K} (ha : a.lengthSquared = 1) (c s c' s' : K) :
    a.turnMatrix c s * a.turnMatrix c' s' = a.turnMatrix (c * c' - s * s') (s * c' + c * s') := by
  simp only [turnMatrix, mul_add, add_mul, smul_mul_smul_comm, one_mul, mul_one,
    crossMatrix_mul_self ha, alongMatrix_mul_self ha, crossMatrix_mul_alongMatrix,
    alongMatrix_mul_crossMatrix, smul_zero]
  module

theorem turnMatrix_one (a : Vec K) : a.turnMatrix 1 0 = 1 := by
  rw [turnMatrix, one_smul, zero_smul, sub_self, zero_smul, add_zero, add_zero]

theorem det_turnMatrix (a : Vec K) (c s : K) :
    (a.turnMatrix c s).det =
      (c + (1 - c) * a.lengthSquared) * (c ^ 2 + s ^ 2 * a.lengthSquared) := by
  simp [turnMatrix, det_fin_three, crossMatrix, alongMatrix, entries, lengthSquared, Vec.dot]
  ring

theorem trace_turnMatrix (a : Vec K) (c s : K) :
    (a.turnMatrix c s).trace = 3 * c + (1 - c) * a.lengthSquared := by
  simp [turnMatrix, trace_fin_three, crossMatrix, alongMatrix, entries, lengthSquared, Vec.dot]
  ring

theorem crossMatrix_mulVec (a v : Vec K) : a.crossMatrix *ᵥ v.entries = (a.cross v).entries := by
  ext i
  fin_cases i <;>
    simp [crossMatrix, entries, mulVec, dotProduct, Fin.sum_univ_three, cross] <;> ring

/- Across the axis only the cosine and the cross product act. -/
theorem turnMatrix_mulVec (a : Vec K) {v : Vec K} (hv : v.dot a = 0) (c s : K) :
    a.turnMatrix c s *ᵥ v.entries = (v.scale c + (a.cross v).scale s).entries := by
  have halong : a.alongMatrix *ᵥ v.entries = 0 := by
    have hdot : a.entries ⬝ᵥ v.entries = 0 := by
      rw [dotProduct_comm, dotProduct, Fin.sum_univ_three]
      exact hv
    rw [alongMatrix, vecMulVec_mulVec, hdot]
    simp
  rw [turnMatrix, add_mulVec, add_mulVec, smul_mulVec, smul_mulVec, smul_mulVec, one_mulVec,
    crossMatrix_mulVec, halong, smul_zero, add_zero]
  ext i
  fin_cases i
  · exact congrArg₂ (· + ·) (mul_comm c v.x) (mul_comm s _)
  · exact congrArg₂ (· + ·) (mul_comm c v.y) (mul_comm s _)
  · exact congrArg₂ (· + ·) (mul_comm c v.z) (mul_comm s _)

theorem turnMatrix_mulVec_self {a : Vec K} (ha : a.lengthSquared = 1) (c s : K) :
    a.turnMatrix c s *ᵥ a.entries = a.entries := by
  have halong : a.alongMatrix *ᵥ a.entries = a.entries := by
    rw [alongMatrix, vecMulVec_mulVec, ← lengthSquared_eq, ha, MulOpposite.op_one, one_smul]
  have hcross : a.crossMatrix *ᵥ a.entries = 0 := by
    rw [← halong, mulVec_mulVec, crossMatrix_mul_alongMatrix, zero_mulVec]
  rw [turnMatrix, add_mulVec, add_mulVec, smul_mulVec, smul_mulVec, smul_mulVec, one_mulVec,
    hcross, halong, smul_zero, add_zero, ← add_smul, add_sub_cancel, one_smul]

end Exact

end Vec

/-! ### The block of a transform -/

namespace Transform

/- The block that acts on displacements. -/
def block {α : Type} (t : Transform α) : Matrix (Fin 3) (Fin 3) α :=
  t.toMatrix.submatrix Fin.castSucc Fin.castSucc

theorem block_transpose {α : Type} (t : Transform α) : t.transpose.block = t.blockᵀ := by
  rw [block, toMatrix_transpose]
  rfl

/- A transform that keeps the origin in its place. -/
structure IsLinear {α : Type} [Scalar α] (t : Transform α) : Prop where
  affine : t.IsAffine
  centred : t.translation = .zero

theorem IsLinear.transpose {α : Type} [Scalar α] {t : Transform α} (ht : t.IsLinear) :
    t.transpose.IsLinear := by
  obtain ⟨haffine, hcentred⟩ := ht
  rw [IsAffine] at haffine
  refine ⟨?_, ?_⟩
  · rw [translation, Vec.zero, Vec.mk.injEq] at hcentred
    rw [IsAffine, Transform.transpose, hcentred.1, hcentred.2.1, hcentred.2.2, haffine]
  · rw [translation, Transform.transpose, haffine]
    rfl

/- Such a transform is known from its block. -/
theorem IsLinear.ext_block {α : Type} [Scalar α] {t u : Transform α} (ht : t.IsLinear)
    (hu : u.IsLinear) (h : t.block = u.block) : t = u := by
  have hmade {r : Transform α} (hr : r.IsLinear) :
      r = ⟨⟨r.block 0 0, r.block 0 1, r.block 0 2, 0⟩, ⟨r.block 1 0, r.block 1 1, r.block 1 2, 0⟩,
        ⟨r.block 2 0, r.block 2 1, r.block 2 2, 0⟩, ⟨0, 0, 0, 1⟩⟩ := by
    obtain ⟨haffine, hcentred⟩ := hr
    obtain ⟨⟨_, _, _, _⟩, ⟨_, _, _, _⟩, ⟨_, _, _, _⟩, _⟩ := r
    simp only [IsAffine, translation, Vec.zero, Vec.mk.injEq] at haffine hcentred
    obtain ⟨rfl, rfl, rfl⟩ := hcentred
    rw [haffine]
    rfl
  rw [hmade ht, hmade hu, h]

section Exact
open Exact
variable {K : Type} [Field K]

theorem entries_linear (t : Transform K) (v : Vec K) :
    (t.linear v).entries = t.block *ᵥ v.entries := by
  ext i
  fin_cases i <;>
    simp [linear, block, toMatrix, Row.entries, Vec.entries, mulVec, dotProduct,
      Fin.sum_univ_three]

theorem block_mul (t : Transform K) {u : Transform K} (hu : u.IsAffine) :
    (t * u).block = t.block * u.block := by
  rw [IsAffine] at hu
  ext i j
  have hlast : u.toMatrix (Fin.last 3) j.castSucc = 0 := by
    fin_cases j <;> simp [toMatrix, Row.entries, hu, Fin.last]
  rw [block, toMatrix_mul, submatrix_apply, Matrix.mul_apply, Fin.sum_univ_castSucc, hlast,
    mul_zero, add_zero]
  rfl

theorem IsLinear.mul {t u : Transform K} (ht : t.IsLinear) (hu : u.IsLinear) :
    (t * u).IsLinear := by
  refine ⟨isAffine_mul ht.affine hu.affine, ?_⟩
  have hlast := hu.transpose.affine
  rw [IsAffine] at hlast
  have hw (r : Row K) : r.dot u.transpose.row3 = r.w := by
    simp only [hlast, Row.dot, mul_zero, mul_one, zero_add]
  have hcentred := ht.centred
  rw [translation] at hcentred ⊢
  rw [mul_def, compose]
  simp only [rowTimes, hw]
  exact hcentred

theorem isLinear_turnAbout (a : Vec K) (c s : K) : (turnAbout a c s).IsLinear := ⟨rfl, rfl⟩

theorem block_turnAbout (a : Vec K) (c s : K) : (turnAbout a c s).block = a.turnMatrix c s := by
  ext i j
  fin_cases i <;> fin_cases j <;>
    simp [block, toMatrix, Row.entries, turnAbout, Vec.turnMatrix, Vec.crossMatrix,
      Vec.alongMatrix, Vec.entries] <;> ring

/- The turn about a unit axis by the angle with cosine `c` and sine `s`. -/
structure IsTurn (t : Transform K) (axis : Vec K) (c s : K) : Prop where
  linear : t.IsLinear
  orthogonal : t.block * t.blockᵀ = 1
  det : t.block.det = 1
  fixes : t.linear axis = axis
  trace : t.block.trace = 1 + 2 * c
  across : ∀ v : Vec K, v.dot axis = 0 → t.linear v = v.scale c + (axis.cross v).scale s

theorem isTurn_turnAbout {axis : Vec K} (haxis : axis.lengthSquared = 1) {c s : K}
    (hcircle : c ^ 2 + s ^ 2 = 1) : (turnAbout axis c s).IsTurn axis c s := by
  have hblock := block_turnAbout axis c s
  refine ⟨isLinear_turnAbout axis c s, ?_, ?_, ?_, ?_, ?_⟩
  · have hone : c * c - s * -s = 1 := by linear_combination hcircle
    have hzero : s * c + c * -s = 0 := by ring
    rw [hblock, Vec.transpose_turnMatrix, Vec.turnMatrix_mul haxis, hone, hzero, Vec.turnMatrix_one]
  · rw [hblock, Vec.det_turnMatrix, haxis]
    linear_combination hcircle
  · apply Vec.entries_injective
    rw [entries_linear, hblock, Vec.turnMatrix_mulVec_self haxis]
  · rw [hblock, Vec.trace_turnMatrix, haxis]
    ring
  · intro v hv
    apply Vec.entries_injective
    rw [entries_linear, hblock, Vec.turnMatrix_mulVec axis hv]

theorem turnAbout_neg (axis : Vec K) (c s : K) :
    turnAbout axis c (-s) = (turnAbout axis c s).transpose := by
  refine (isLinear_turnAbout axis c (-s)).ext_block (isLinear_turnAbout axis c s).transpose ?_
  rw [block_transpose, block_turnAbout, block_turnAbout, Vec.transpose_turnMatrix]

theorem turnAbout_mul {axis : Vec K} (haxis : axis.lengthSquared = 1) (c s c' s' : K) :
    turnAbout axis c s * turnAbout axis c' s' =
      turnAbout axis (c * c' - s * s') (s * c' + c * s') := by
  have hlinear := isLinear_turnAbout (K := K) axis
  refine ((hlinear c s).mul (hlinear c' s')).ext_block (hlinear _ _) ?_
  rw [block_mul _ (hlinear c' s').affine, block_turnAbout, block_turnAbout, block_turnAbout,
    Vec.turnMatrix_mul haxis]

theorem turnAbout_unitX (c s : K) : turnAbout .unitX c s = turnX c s := by
  simp [turnAbout, Vec.unitX, turnX]

theorem turnAbout_unitY (c s : K) : turnAbout .unitY c s = turnY c s := by
  simp [turnAbout, Vec.unitY, turnY]

theorem turnAbout_unitZ (c s : K) : turnAbout .unitZ c s = turnZ c s := by
  simp [turnAbout, Vec.unitZ, turnZ]

theorem rotateAbout?_unit [LinearOrder K] [IsStrictOrderedRing K] [Trig K] [SquareRoot K]
    (hroot : SquareRoot.sqrt (1 : K) = 1) {axis : Vec K} (haxis : axis.lengthSquared = 1)
    (angle : K) : rotateAbout? axis angle = some (turnAbout axis (cos angle) (sin angle)) := by
  have hlength : axis.length = 1 := by rw [Vec.length, haxis, hroot]
  have hdiv : (axis / (1 : K) : Vec K) = axis := by
    show (⟨axis.x / 1, axis.y / 1, axis.z / 1⟩ : Vec K) = axis
    simp only [div_one]
  rw [rotateAbout?, Vec.normalized?, hlength, if_pos ⟨rfl, zero_lt_one⟩, hdiv]
  rfl

/- Around a unit axis there is a turn for every point of the unit circle. Turning back is the
transpose, and turns about one axis multiply as the points of the circle do. About the three axes of
space they are the elementary rotations. -/
theorem turns_about_axis [LinearOrder K] [IsStrictOrderedRing K] [Trig K] [SquareRoot K]
    (hroot : SquareRoot.sqrt (1 : K) = 1) {axis : Vec K} (haxis : axis.lengthSquared = 1) :
    (∀ angle, rotateAbout? axis angle = some (turnAbout axis (cos angle) (sin angle))) ∧
    (∀ c s, c ^ 2 + s ^ 2 = 1 → (turnAbout axis c s).IsTurn axis c s) ∧
    (∀ c s, turnAbout axis c (-s) = (turnAbout axis c s).transpose) ∧
    (∀ c s c' s', turnAbout axis c s * turnAbout axis c' s' =
      turnAbout axis (c * c' - s * s') (s * c' + c * s')) ∧
    (∀ c s : K, turnAbout .unitX c s = turnX c s ∧ turnAbout .unitY c s = turnY c s ∧
      turnAbout .unitZ c s = turnZ c s) ∧
    ∀ angle : K, rotateAbout? .unitX angle = some (rotateX angle) ∧
      rotateAbout? .unitY angle = some (rotateY angle) ∧
      rotateAbout? .unitZ angle = some (rotateZ angle) := by
  refine ⟨rotateAbout?_unit hroot haxis, fun c s => isTurn_turnAbout haxis, turnAbout_neg axis,
    turnAbout_mul haxis, ?_, ?_⟩
  · intro c s
    exact ⟨turnAbout_unitX c s, turnAbout_unitY c s, turnAbout_unitZ c s⟩
  · intro angle
    have hx := Vec.lengthSquared_unitX (K := K)
    have hy := Vec.lengthSquared_unitY (K := K)
    have hz := Vec.lengthSquared_unitZ (K := K)
    rw [rotateAbout?_unit hroot hx, rotateAbout?_unit hroot hy, rotateAbout?_unit hroot hz,
      turnAbout_unitX, turnAbout_unitY, turnAbout_unitZ]
    exact ⟨rfl, rfl, rfl⟩

end Exact

/-! ### A turn about a slanted axis -/

section Slanted
open Exact

noncomputable def slanted : Vec ℝ := ⟨(2 : Nat) / (3 : Nat), -1 / (3 : Nat), (2 : Nat) / (3 : Nat)⟩

theorem slanted_turns :
    (SquareRoot.sqrt (1 : ℝ) = 1 ∧ slanted.lengthSquared = 1) ∧
    ((3 / 5 : ℝ) ^ 2 + (4 / 5) ^ 2 = 1 ∧
      (turnAbout slanted (3 / 5) (4 / 5)).IsTurn slanted (3 / 5) (4 / 5)) ∧
    (∀ angle, rotateAbout? slanted angle = some (turnAbout slanted (cos angle) (sin angle))) ∧
    turnAbout slanted (3 / 5) (4 / 5) * turnAbout slanted 0 1 =
      turnAbout slanted (3 / 5 * 0 - 4 / 5 * 1) (4 / 5 * 0 + 3 / 5 * 1) := by
  have hroot : SquareRoot.sqrt (1 : ℝ) = 1 := Real.sqrt_one
  have hunit : slanted.lengthSquared = 1 := by
    rw [Vec.lengthSquared, Vec.dot, slanted]
    norm_num
  have hcircle : (3 / 5 : ℝ) ^ 2 + (4 / 5) ^ 2 = 1 := by norm_num
  obtain ⟨hbuilt, hturn, -, hmul, -⟩ := turns_about_axis hroot hunit
  exact ⟨⟨hroot, hunit⟩, ⟨hcircle, hturn _ _ hcircle⟩, hbuilt, hmul _ _ _ _⟩

end Slanted

end Transform

end ProceduralShapes
