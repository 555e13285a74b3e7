import Mathlib.Analysis.Convex.Combination
import ProceduralShapes.Proofs.Patch.Weight

/-!
# Bezier patches

The weights of the Bezier basis are the Bernstein polynomials of degree three. Between zero and one
they are nonnegative and their sum is one, so a patch lies among its moved control points. At zero
and at one a single weight is left, so the corners of the net are on the patch, and its first and
last edge are the curves of the first and last row (`bezier_blends`).
-/

namespace ProceduralShapes

/-! ### Averages -/

section Average
variable {K : Type} [Field K] [LinearOrder K] [IsStrictOrderedRing K]

theorem blend_mem_Icc {w w' : Fin 4 → K} (hw : ∀ i, 0 ≤ w i) (hone : ∑ i, w i = 1)
    (hw' : ∀ j, 0 ≤ w' j) (hone' : ∑ j, w' j = 1) {f : Fin 4 → Fin 4 → K} {lo hi : K}
    (hf : ∀ i j, f i j ∈ Set.Icc lo hi) : blend w w' f ∈ Set.Icc lo hi := by
  have hrow (i : Fin 4) : w' ⬝ᵥ f i ∈ Set.Icc lo hi :=
    (convex_Icc lo hi).sum_mem (fun j _ => hw' j) hone' fun j _ => hf i j
  rw [blend_eq_dotProduct]
  exact (convex_Icc lo hi).sum_mem (fun i _ => hw i) hone fun i _ => hrow i

end Average

/-! ### Bernstein polynomials -/

section Bernstein
variable {K : Type} [Field K]

def bernstein (u : K) : Fin 4 → K :=
  ![(1 - u) ^ 3, 3 * u * (1 - u) ^ 2, 3 * u ^ 2 * (1 - u), u ^ 3]

theorem sum_bernstein (u : K) : ∑ i, bernstein u i = 1 := by
  simp only [bernstein, Fin.sum_univ_four, Matrix.cons_val]
  ring

theorem bernstein_zero : bernstein (0 : K) = Pi.single 0 1 := by
  ext i
  fin_cases i <;> simp [bernstein]

theorem bernstein_one : bernstein (1 : K) = Pi.single 3 1 := by
  ext i
  fin_cases i <;> simp [bernstein]

theorem bernstein_nonneg [LinearOrder K] [IsStrictOrderedRing K] {u : K} (hu : u ∈ Set.Icc 0 1)
    (i : Fin 4) : 0 ≤ bernstein u i := by
  obtain ⟨h0, h1⟩ := hu
  have hrest : 0 ≤ 1 - u := sub_nonneg.2 h1
  fin_cases i
  · exact pow_nonneg hrest 3
  · exact mul_nonneg (mul_nonneg zero_le_three h0) (pow_nonneg hrest 2)
  · exact mul_nonneg (mul_nonneg zero_le_three (pow_nonneg h0 2)) hrest
  · exact pow_nonneg h0 3

open Exact

theorem toMatrix_bezier : (Basis.bezier.matrix : Transform K).toMatrix =
    !![-1, 3, -3, 1; 3, -6, 3, 0; -3, 3, 0, 0; 1, 0, 0, 0] := by
  simp only [Basis.matrix, Transform.toMatrix, Row.entries, Nat.cast_ofNat]

theorem weights_bezier (u : K) : Basis.bezier.weights u = bernstein u := by
  ext i
  rw [Basis.weights_apply, toMatrix_bezier]
  match i with
  | 0 | 1 | 2 | 3 =>
    simp only [bernstein, Matrix.of_apply, Matrix.cons_val]
    ring

end Bernstein

/-! ### Edges -/

/- The edges where the first parameter ends, each with a row of the net. -/
inductive Edge
  | first
  | last
deriving DecidableEq, Repr

namespace Edge

def row : Edge → Fin 4
  | .first => 0
  | .last => 3

def param {K : Type} [Field K] : Edge → K
  | .first => 0
  | .last => 1

end Edge

namespace Patch

open Exact Matrix

section Edges
variable {K : Type} [Field K]

theorem bernstein_param (e : Edge) : bernstein (e.param : K) = Pi.single e.row 1 := by
  cases e with
  | first => exact bernstein_zero
  | last => exact bernstein_one

theorem coord_bezier (net : Net K) (t : Transform K) (u v : K) (a : Axis) :
    ((ofNet net t .bezier).pointAt u v).coord a =
      blend (bernstein u) (bernstein v) fun i j => (t.apply (net.at i j)).coord a := by
  rw [coord_pointAt, weights_bezier, weights_bezier]

theorem coord_edge (net : Net K) (t : Transform K) (e : Edge) (v : K) (a : Axis) :
    ((ofNet net t .bezier).pointAt e.param v).coord a =
      bernstein v ⬝ᵥ fun j => (t.apply (net.at e.row j)).coord a := by
  rw [coord_bezier, bernstein_param, blend_single]

theorem pointAt_corner (net : Net K) (t : Transform K) (e e' : Edge) :
    (ofNet net t .bezier).pointAt e.param e'.param = t.apply (net.at e.row e'.row) := by
  refine Point.ext_coord fun a => ?_
  rw [coord_edge, bernstein_param, single_one_dotProduct]

end Edges

/- A Bezier patch is the sum of its moved control points with Bernstein weights. So it lies among
them, its corners are those of the net, and each of its edges depends on one row only, by which
patches are joined. -/
theorem bezier_blends {K : Type} [Field K] [LinearOrder K] [IsStrictOrderedRing K] (net : Net K)
    (t : Transform K) :
    let patch := ofNet net t .bezier
    (∀ u v a, (patch.pointAt u v).coord a =
      ∑ i, ∑ j, bernstein u i * bernstein v j * (t.apply (net.at i j)).coord a) ∧
    (∀ u v, 0 ≤ u → u ≤ 1 → 0 ≤ v → v ≤ 1 → ∀ a,
      Finset.univ.inf' Finset.univ_nonempty (fun k => (t.apply (net.get k)).coord a) ≤
          (patch.pointAt u v).coord a ∧
        (patch.pointAt u v).coord a ≤
          Finset.univ.sup' Finset.univ_nonempty fun k => (t.apply (net.get k)).coord a) ∧
    (patch.pointAt 0 0 = t.apply (net.get 0) ∧ patch.pointAt 0 1 = t.apply (net.get 3) ∧
      patch.pointAt 1 0 = t.apply (net.get 12) ∧ patch.pointAt 1 1 = t.apply (net.get 15)) ∧
    ∀ (e e' : Edge) (net' : Net K) (t' : Transform K),
      (∀ j, t.apply (net.at e.row j) = t'.apply (net'.at e'.row j)) →
        ∀ v, patch.pointAt e.param v = (ofNet net' t' .bezier).pointAt e'.param v := by
  refine ⟨?_, ?_, ⟨?_, ?_, ?_, ?_⟩, ?_⟩
  · intro u v a
    exact coord_bezier net t u v a
  · intro u v hu hu' hv hv' a
    rw [coord_bezier, ← Set.mem_Icc]
    refine blend_mem_Icc (bernstein_nonneg ⟨hu, hu'⟩) (sum_bernstein u) (bernstein_nonneg ⟨hv, hv'⟩)
      (sum_bernstein v) fun i j => ?_
    exact ⟨Finset.inf'_le (fun k => (t.apply (net.get k)).coord a) (Finset.mem_univ _),
      Finset.le_sup' (fun k => (t.apply (net.get k)).coord a) (Finset.mem_univ _)⟩
  · exact pointAt_corner net t .first .first
  · exact pointAt_corner net t .first .last
  · exact pointAt_corner net t .last .first
  · exact pointAt_corner net t .last .last
  · intro e e' net' t' hrow v
    refine Point.ext_coord fun a => ?_
    simp only [coord_edge, hrow]

/-! ### A ridge -/

/- A flat net with a ridge along its diagonal. -/
def ridge : Net ℚ :=
  Vector.ofFn fun k => ⟨(k / 4 : Nat), (k % 4 : Nat), if k / 4 = k % 4 then 1 else 0⟩

def stretch : Transform ℚ := .translate ⟨1, 0, 0⟩ * .scale ⟨2, 1, 3⟩

/- The net that begins where the stretched ridge ends. -/
def behindRidge : Net ℚ := Vector.ofFn fun k => stretch.apply (ridge.get (k + 12))

/- The ridge is three high at most, and the next patch meets its end. -/
theorem ridge_blends :
    let patch := ofNet ridge stretch .bezier
    (0 ≤ (1 / 2 : ℚ) ∧ (1 / 2 : ℚ) ≤ 1 ∧ 0 ≤ (1 / 3 : ℚ) ∧ (1 / 3 : ℚ) ≤ 1) ∧
    0 ≤ (patch.pointAt (1 / 2) (1 / 3)).z ∧ (patch.pointAt (1 / 2) (1 / 3)).z ≤ 3 ∧
    (∀ j, stretch.apply (ridge.at 3 j) = Transform.apply .identity (behindRidge.at 0 j)) ∧
    ∀ v, patch.pointAt 1 v = (ofNet behindRidge .identity .bezier).pointAt 0 v := by
  intro patch
  have hlow : Finset.univ.inf' Finset.univ_nonempty
      (fun k : Fin 16 => (stretch.apply (ridge.get k)).coord .z) = 0 := by decide +kernel
  have hhigh : Finset.univ.sup' Finset.univ_nonempty
      (fun k : Fin 16 => (stretch.apply (ridge.get k)).coord .z) = 3 := by decide +kernel
  have hrow : ∀ j, stretch.apply (ridge.at 3 j) =
      Transform.apply .identity (behindRidge.at 0 j) := by decide +kernel
  obtain ⟨-, hbetween, -, hjoin⟩ := bezier_blends ridge stretch
  have hparams : 0 ≤ (1 / 2 : ℚ) ∧ (1 / 2 : ℚ) ≤ 1 ∧ 0 ≤ (1 / 3 : ℚ) ∧ (1 / 3 : ℚ) ≤ 1 := by
    norm_num
  obtain ⟨hu, hu', hv, hv'⟩ := hparams
  obtain ⟨hlower, hupper⟩ := hbetween (1 / 2) (1 / 3) hu hu' hv hv' .z
  rw [hlow] at hlower
  rw [hhigh] at hupper
  exact ⟨⟨hu, hu', hv, hv'⟩, hlower, hupper, hrow,
    hjoin .last .first behindRidge .identity hrow⟩

end Patch

end ProceduralShapes
