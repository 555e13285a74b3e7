import ProceduralShapes.Proofs.Space.Matrix
import ProceduralShapes.Patch.Basic

/-!
# Weights of control points

A basis gives the four control points of a row weights that depend on the parameter. The point of a
patch is the sum of all control points, each times the weight in its column and that in its row
(`coord_pointAt`). So what holds of the weights of a basis holds of all its patches.
-/

namespace ProceduralShapes

/-! ### Coordinates -/

inductive Axis
  | x
  | y
  | z
deriving DecidableEq, Repr

namespace Point

variable {α : Type}

def coord (p : Point α) : Axis → α
  | .x => p.x
  | .y => p.y
  | .z => p.z

theorem ext_coord {p q : Point α} (h : ∀ a, p.coord a = q.coord a) : p = q := by
  have hx : p.x = q.x := h .x
  have hy : p.y = q.y := h .y
  have hz : p.z = q.z := h .z
  rw [Point.mk.injEq]
  exact ⟨hx, hy, hz⟩

end Point

/- The control point in a row and a column of the net. -/
def Net.at {α : Type} (net : Net α) (i j : Fin 4) : Point α :=
  net.get ⟨4 * i + j, Transform.entry_lt i j⟩

/-! ### Sums with two rows of weights -/

section Blend
variable {K : Type} [Field K]

def blend (w w' : Fin 4 → K) (f : Fin 4 → Fin 4 → K) : K := ∑ i, ∑ j, w i * w' j * f i j

theorem blend_add (w w' : Fin 4 → K) (f g : Fin 4 → Fin 4 → K) :
    blend w w' (fun i j => f i j + g i j) = blend w w' f + blend w w' g := by
  simp only [blend, mul_add, Finset.sum_add_distrib]

theorem blend_mul (w w' : Fin 4 → K) (c : K) (f : Fin 4 → Fin 4 → K) :
    blend w w' (fun i j => c * f i j) = c * blend w w' f := by
  simp only [blend, mul_left_comm _ c, Finset.mul_sum]

theorem blend_const (w w' : Fin 4 → K) (c : K) :
    blend w w' (fun _ _ => c) = (∑ i, w i) * (∑ j, w' j) * c := by
  rw [blend, Finset.sum_mul_sum]
  simp only [Finset.sum_mul]

open Matrix

theorem blend_eq_dotProduct (w w' : Fin 4 → K) (f : Fin 4 → Fin 4 → K) :
    blend w w' f = w ⬝ᵥ fun i => w' ⬝ᵥ f i := by
  simp only [blend, dotProduct, Finset.mul_sum, mul_assoc]

/- All the weight is on one row. -/
theorem blend_single (i : Fin 4) (w' : Fin 4 → K) (f : Fin 4 → Fin 4 → K) :
    blend (Pi.single i 1) w' f = w' ⬝ᵥ f i := by
  rw [blend_eq_dotProduct, single_one_dotProduct]

end Blend

/-! ### The point of a patch -/

open Exact Matrix

variable {K : Type} [Field K]

/- The weights of four control points in a row. -/
def Basis.weights (basis : Basis) (u : K) : Fin 4 → K :=
  (Patch.powers u).entries ᵥ* (basis.matrix : Transform K).toMatrix

theorem Basis.weights_apply (basis : Basis) (u : K) (i : Fin 4) :
    basis.weights u i =
      u * u * u * (basis.matrix : Transform K).toMatrix 0 i +
      u * u * (basis.matrix : Transform K).toMatrix 1 i +
      u * (basis.matrix : Transform K).toMatrix 2 i +
      (basis.matrix : Transform K).toMatrix 3 i := by
  have hlast : (Patch.powers u).entries 3 = 1 := rfl
  rw [weights, vecMul, dotProduct, Fin.sum_univ_four, hlast, one_mul]
  rfl

namespace Patch

/- The coefficients of a coordinate. -/
def along {α : Type} (p : Patch α) : Axis → Transform α
  | .x => p.x
  | .y => p.y
  | .z => p.z

theorem coord_eq_bilinear (p : Patch K) (u v : K) (a : Axis) :
    (p.pointAt u v).coord a = (p.along a).bilinear (powers u) (powers v) := by
  cases a <;> rfl

theorem along_ofNet (net : Net K) (t : Transform K) (basis : Basis) (a : Axis) :
    (ofNet net t basis).along a = coefficients basis ((net.map t.apply).map (·.coord a)) := by
  cases a <;> rfl

/- The matrices of the basis on both sides of the values act on the powers of the parameters. -/
theorem bilinear_coefficients (basis : Basis) (values : Vector K 16) (u v : K) :
    (coefficients basis values).bilinear (powers u) (powers v) =
      basis.weights u ⬝ᵥ ((Transform.ofRows values).toMatrix *ᵥ basis.weights v) := by
  rw [Transform.bilinear_eq, coefficients, Transform.toMatrix_mul, Transform.toMatrix_mul,
    Transform.toMatrix_transpose, ← mulVec_mulVec, ← mulVec_mulVec, mulVec_transpose,
    dotProduct_mulVec]
  rfl

theorem coord_pointAt (net : Net K) (t : Transform K) (basis : Basis) (u v : K) (a : Axis) :
    ((ofNet net t basis).pointAt u v).coord a =
      blend (basis.weights u) (basis.weights v) fun i j => (t.apply (net.at i j)).coord a := by
  have hvalue (k : Fin 16) :
      ((net.map t.apply).map (·.coord a)).get k = (t.apply (net.get k)).coord a := by
    rw [Vector.map_map]
    exact Vector.getElem_map _ k.isLt
  rw [coord_eq_bilinear, along_ofNet, bilinear_coefficients, blend_eq_dotProduct]
  refine congrArg (basis.weights u ⬝ᵥ ·) (funext fun i => ?_)
  rw [mulVec, dotProduct_comm]
  refine congrArg (basis.weights v ⬝ᵥ ·) (funext fun j => ?_)
  rw [Transform.toMatrix_ofRows, hvalue, Net.at]

end Patch

end ProceduralShapes
