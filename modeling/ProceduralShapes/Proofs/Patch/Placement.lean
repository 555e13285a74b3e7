import ProceduralShapes.Proofs.Patch.Weight

/-!
# Placed patches

A patch over moved control points is the linear part of the move, applied to the patch over the
points as given, and the displacement times the sum of all weights. This sum is the product of one
sum for each parameter. Three of the bases give weights whose sum is always one, so their patches
may be moved before or after they are evaluated. The weights of two tangents spoil it for the
Hermite basis (`placed_after_evaluation`).
-/

namespace ProceduralShapes

/-! ### Displacements -/

namespace Vec

open Exact

variable {K : Type} [Field K]

theorem toPoint_add_inj {v w w' : Vec K} : (v + w).toPoint = (v + w').toPoint ↔ w = w' := by
  refine ⟨fun h => ?_, fun h => congrArg (fun w => (v + w).toPoint) h⟩
  have hx : v.x + w.x = v.x + w'.x := congrArg Point.x h
  have hy : v.y + w.y = v.y + w'.y := congrArg Point.y h
  have hz : v.z + w.z = v.z + w'.z := congrArg Point.z h
  rw [Vec.mk.injEq]
  exact ⟨add_left_cancel hx, add_left_cancel hy, add_left_cancel hz⟩

theorem scale_one (v : Vec K) : v.scale 1 = v := by
  simp only [scale, mul_one]

theorem scale_eq_self_iff {v : Vec K} {s : K} : v.scale s = v ↔ v = zero ∨ s = 1 := by
  constructor
  · intro h
    refine or_iff_not_imp_right.2 fun hs => ?_
    have hzero {c : K} (hc : c * s = c) : c = 0 := (mul_right_eq_self₀.1 hc).resolve_left hs
    rw [zero, Vec.mk.injEq]
    exact ⟨hzero (congrArg Vec.x h), hzero (congrArg Vec.y h), hzero (congrArg Vec.z h)⟩
  · rintro (rfl | rfl)
    · simp only [scale, zero, zero_mul]
    · exact scale_one v

end Vec

/-! ### Sums of weights -/

namespace Basis

open Exact

variable {K : Type} [Field K]

def weightSum (basis : Basis) (u : K) : K := ∑ i, basis.weights u i

/- The sum by powers of the parameter. -/
theorem weightSum_eq (basis : Basis) (u : K) :
    basis.weightSum u =
      u ^ 3 * (∑ i, (basis.matrix : Transform K).toMatrix 0 i) +
      u ^ 2 * (∑ i, (basis.matrix : Transform K).toMatrix 1 i) +
      u * (∑ i, (basis.matrix : Transform K).toMatrix 2 i) +
      ∑ i, (basis.matrix : Transform K).toMatrix 3 i := by
  simp only [weightSum, weights_apply, Finset.sum_add_distrib, Finset.mul_sum, pow_succ, pow_zero,
    one_mul]

theorem weightSum_hermite (u : K) :
    Basis.hermite.weightSum u = 2 * u ^ 3 - 3 * u ^ 2 + u + 1 := by
  simp only [weightSum_eq, Fin.sum_univ_four, matrix, Transform.toMatrix, Row.entries,
    Matrix.of_apply, Matrix.cons_val, Nat.cast_ofNat]
  ring

theorem weightSum_eq_one [CharZero K] {basis : Basis} (h : basis ≠ .hermite) (u : K) :
    basis.weightSum u = 1 := by
  rw [weightSum_eq]
  cases basis with
  | hermite => exact absurd rfl h
  | bezier | bspline | catmullRom =>
    simp only [Fin.sum_univ_four, matrix, Transform.toMatrix, Row.entries, Matrix.of_apply,
      Matrix.cons_val, Nat.cast_ofNat]
    ring

end Basis

/-! ### Moved control points -/

section Blend
open Exact
variable {K : Type} [Field K]

/- A row of a transform goes through the sum, but its last entry is counted with every weight. -/
theorem blend_atPoint (w w' : Fin 4 → K) (r : Row K) (p : Fin 4 → Fin 4 → Point K) :
    blend w w' (fun i j => r.atPoint (p i j)) =
      r.x * blend w w' (fun i j => (p i j).x) + r.y * blend w w' (fun i j => (p i j).y) +
        r.z * blend w w' (fun i j => (p i j).z) + (∑ i, w i) * (∑ j, w' j) * r.w := by
  simp only [Row.atPoint, blend_add, blend_mul, blend_const]

end Blend

namespace Patch

open Exact

section Placed
variable {K : Type} [Field K]

theorem coord_identity (net : Net K) (basis : Basis) (u v : K) (a : Axis) :
    ((ofNet net .identity basis).pointAt u v).coord a =
      blend (basis.weights u) (basis.weights v) fun i j => (net.at i j).coord a := by
  simp only [coord_pointAt, Transform.apply_identity]

theorem pointAt_ofNet (net : Net K) (t : Transform K) (basis : Basis) (u v : K) :
    (ofNet net t basis).pointAt u v =
      (t.linear ((ofNet net .identity basis).pointAt u v).toVec +
        t.translation.scale (basis.weightSum u * basis.weightSum v)).toPoint := by
  have hrow (r : Row K) :
      blend (basis.weights u) (basis.weights v) (fun i j => r.atPoint (net.at i j)) =
        r.x * ((ofNet net .identity basis).pointAt u v).x +
          r.y * ((ofNet net .identity basis).pointAt u v).y +
          r.z * ((ofNet net .identity basis).pointAt u v).z +
          r.w * (basis.weightSum u * basis.weightSum v) := by
    rw [blend_atPoint, mul_comm r.w]
    have hx := coord_identity net basis u v .x
    have hy := coord_identity net basis u v .y
    have hz := coord_identity net basis u v .z
    simp only [Point.coord] at hx hy hz
    rw [hx, hy, hz]
    rfl
  refine Point.ext_coord fun a => ?_
  rw [coord_pointAt]
  cases a with
  | x => exact hrow t.row0
  | y => exact hrow t.row1
  | z => exact hrow t.row2

end Placed

/- A patch may be moved before or after it is evaluated, up to the sum of its weights. This is one
for all bases but the Hermite basis, for which the order matters unless the move is linear or the
weights of the two parameters happen to make up for each other. -/
theorem placed_after_evaluation {K : Type} [Field K] [CharZero K] (net : Net K)
    (t : Transform K) :
    let placed (basis : Basis) (u v : K) := (ofNet net t basis).pointAt u v
    let plain (basis : Basis) (u v : K) := (ofNet net .identity basis).pointAt u v
    (∀ basis u v, placed basis u v = (t.linear (plain basis u v).toVec +
      t.translation.scale (basis.weightSum u * basis.weightSum v)).toPoint) ∧
    (∀ basis, basis ≠ .hermite →
      (∀ u : K, basis.weightSum u = 1) ∧ ∀ u v, placed basis u v = t.apply (plain basis u v)) ∧
    (∀ u : K, Basis.hermite.weightSum u = 2 * u ^ 3 - 3 * u ^ 2 + u + 1) ∧
    ∀ u v, placed .hermite u v = t.apply (plain .hermite u v) ↔
      t.translation = .zero ∨ Basis.hermite.weightSum u * Basis.hermite.weightSum v = 1 := by
  intro placed plain
  refine ⟨pointAt_ofNet net t, ?_, Basis.weightSum_hermite, ?_⟩
  · intro basis hbasis
    have hone (u : K) : basis.weightSum u = 1 := Basis.weightSum_eq_one hbasis u
    refine ⟨hone, fun u v => ?_⟩
    simp only [placed, plain, pointAt_ofNet net t, hone, mul_one, Vec.scale_one,
      Transform.apply_eq]
  · intro u v
    simp only [placed, plain, pointAt_ofNet net t, Transform.apply_eq]
    rw [Vec.toPoint_add_inj, Vec.scale_eq_self_iff]

/-! ### A shifted slope -/

def slope : Net ℚ := Vector.ofFn fun k => ⟨(k / 4 : Nat), (k % 4 : Nat), (k / 4 + k % 4 : Nat)⟩

def shift : Transform ℚ := .translate ⟨1, 0, 0⟩

/- The shift of the slope goes along with a B-spline patch, but moves a Hermite patch too far. -/
theorem slope_shifts :
    (Basis.bspline ≠ .hermite ∧ (ofNet slope shift .bspline).pointAt (1 / 4) (1 / 4) =
      shift.apply ((ofNet slope .identity .bspline).pointAt (1 / 4) (1 / 4))) ∧
    Basis.hermite.weightSum (1 / 4 : ℚ) = 35 / 32 ∧
    (ofNet slope shift .hermite).pointAt (1 / 4) (1 / 4) ≠
      shift.apply ((ofNet slope .identity .hermite).pointAt (1 / 4) (1 / 4)) := by
  obtain ⟨-, hmove, hsum, hlaw⟩ := placed_after_evaluation slope shift
  have hbasis : Basis.bspline ≠ .hermite := by decide
  have hquarter : Basis.hermite.weightSum (1 / 4 : ℚ) = 35 / 32 := by
    rw [hsum]
    norm_num
  have hshift : shift.translation ≠ .zero := by decide +kernel
  refine ⟨⟨hbasis, (hmove .bspline hbasis).2 _ _⟩, hquarter, fun hsame => ?_⟩
  obtain hnone | hone := (hlaw _ _).1 hsame
  · exact hshift hnone
  · rw [hquarter] at hone
    norm_num at hone

end Patch

end ProceduralShapes
