import Mathlib.Tactic.Linarith
import ProceduralShapes.Proofs.Reals
import ProceduralShapes.Surface.Tessellation

/-!
# Where the last row meets the first

Half a turn of `theta` brings a doubly periodic surface back to its first circle. The torus comes
back to the same place of it; the bottle comes back mirrored and the band half a turn further on
(`Surface.across`). A closed grid joins every column to itself, so it continues the torus and cuts
across the other two.
-/

namespace ProceduralShapes.Surface

open Exact

/-! ### A full turn of the second angle -/

theorem position_add_tau (s : Surface) (theta phi : ℝ) :
    s.position theta (phi + tau) = s.position theta phi := by
  have hsin : Real.sin (phi + 2 * Real.pi) = Real.sin phi := Real.sin_add_two_pi phi
  have hcos : Real.cos (phi + 2 * Real.pi) = Real.cos phi := Real.cos_add_two_pi phi
  rw [tau_def]
  cases s with
  | torus => simp only [position, torusPosition, sin_def, cos_def, hsin, hcos]
  | sphere => simp only [position, spherePosition, sin_def, cos_def, hsin, hcos]
  | klein =>
    simp only [position, kleinPosition, sin_def, cos_def, pi_def, hsin, hcos, Real.cos_add_pi]
  | mobius => simp only [position, mobiusPosition, sin_def, cos_def, hsin, hcos]

/-! ### Half a turn of the first -/

theorem cos_pi_mul_two : Real.cos (Real.pi * 2) = 1 := by rw [mul_comm, Real.cos_two_pi]

theorem sin_pi_mul_two : Real.sin (Real.pi * 2) = 0 := by rw [mul_comm, Real.sin_two_pi]

theorem torusPosition_pi (major minor phi : ℝ) :
    torusPosition major minor pi phi = torusPosition major minor 0 phi := by
  simp only [torusPosition, sin_def, cos_def, pi_def, Nat.cast_ofNat, cos_pi_mul_two,
    sin_pi_mul_two, zero_mul, Real.cos_zero, Real.sin_zero]

theorem kleinPosition_zero (phi : ℝ) :
    kleinPosition 0 phi = ⟨3 + Real.cos phi, -Real.sin phi, 0⟩ := by
  have hhandle : (0 : ℝ) < Real.pi := Real.pi_pos
  simp only [kleinPosition, sin_def, cos_def, pi_def, Nat.cast_ofNat, zero_mul, hhandle, if_true,
    Real.cos_zero, Real.sin_zero, Point.mk.injEq]
  refine ⟨?_, ?_, ?_⟩
  · ring
  · ring
  · ring

theorem kleinPosition_pi (phi : ℝ) : kleinPosition pi phi = kleinPosition 0 (pi - phi) := by
  have hbody : ¬Real.pi * 2 < Real.pi := by linarith [Real.pi_pos]
  rw [kleinPosition_zero]
  simp only [kleinPosition, sin_def, cos_def, pi_def, Nat.cast_ofNat, hbody, if_false,
    cos_pi_mul_two, sin_pi_mul_two, Real.cos_add_pi, Real.cos_pi_sub, Real.sin_pi_sub,
    Point.mk.injEq]
  refine ⟨?_, ?_, ?_⟩
  · ring
  · ring
  · ring

theorem mobiusPosition_zero (phi : ℝ) :
    mobiusPosition 0 phi = ⟨5 / 4 + 1 / 8 * Real.cos phi, 0, 1 / 2 * Real.sin phi⟩ := by
  simp only [mobiusPosition, sin_def, cos_def, Nat.cast_ofNat, zero_mul, zero_div, Real.cos_zero,
    Real.sin_zero, Point.mk.injEq]
  refine ⟨?_, ?_, ?_⟩
  · ring
  · ring
  · ring

theorem mobiusPosition_pi (phi : ℝ) : mobiusPosition pi phi = mobiusPosition 0 (phi + pi) := by
  have hhalf : Real.pi * 2 / 2 = Real.pi := by ring
  rw [mobiusPosition_zero]
  simp only [mobiusPosition, sin_def, cos_def, pi_def, Nat.cast_ofNat, cos_pi_mul_two,
    sin_pi_mul_two, hhalf, Real.cos_pi, Real.sin_pi, Real.cos_add_pi, Real.sin_add_pi,
    Point.mk.injEq]
  refine ⟨?_, ?_, ?_⟩
  · ring
  · ring
  · ring

/- The place on the first circle at which the surface arrives from this angle of the last. -/
noncomputable def across : Surface → ℝ → ℝ
  | .klein, phi => pi - phi
  | .mobius, phi => phi + pi
  | _, phi => phi

theorem position_pi {s : Surface} (h : s.isDoublyPeriodic = true) (phi : ℝ) :
    s.position pi phi = s.position 0 (s.across phi) := by
  cases s with
  | torus => exact torusPosition_pi _ _ phi
  | sphere => cases h
  | klein => exact kleinPosition_pi phi
  | mobius => exact mobiusPosition_pi phi

/-! ### Where the seam closes -/

theorem klein_closes_iff (phi : ℝ) :
    kleinPosition pi phi = kleinPosition 0 phi ↔ Real.cos phi = 0 := by
  rw [kleinPosition_pi, kleinPosition_zero, kleinPosition_zero, pi_def, Real.cos_pi_sub,
    Real.sin_pi_sub, Point.mk.injEq]
  constructor
  · rintro ⟨hx, -, -⟩
    linarith
  · intro hcos
    rw [hcos]
    exact ⟨by ring, rfl, rfl⟩

theorem mobius_never_closes (phi : ℝ) : mobiusPosition pi phi ≠ mobiusPosition 0 phi := by
  rw [mobiusPosition_pi, mobiusPosition_zero, mobiusPosition_zero, pi_def, Real.cos_add_pi,
    Real.sin_add_pi, ne_eq, Point.mk.injEq]
  rintro ⟨hx, -, hz⟩
  have hcos : Real.cos phi = 0 := by linarith
  have hsin : Real.sin phi = 0 := by linarith
  have hunit := Real.sin_sq_add_cos_sq phi
  rw [hcos, hsin] at hunit
  norm_num at hunit

/- A doubly periodic surface closes in `phi`, and comes back in `theta` to its first circle: the
torus to the same angle of it, the bottle only at its two sides, the band nowhere. -/
theorem position_seam (s : Surface) (hs : s.isDoublyPeriodic = true) (phi : ℝ) :
    (∀ theta : ℝ, s.position theta (phi + tau) = s.position theta phi) ∧
    s.position pi phi = s.position 0 (s.across phi) ∧
    (s.position pi phi = s.position 0 phi ↔ s = .torus ∨ s = .klein ∧ Real.cos phi = 0) := by
  refine ⟨fun theta => position_add_tau s theta phi, position_pi hs phi, ?_⟩
  cases s with
  | torus => exact ⟨fun _ => .inl rfl, fun _ => torusPosition_pi _ _ phi⟩
  | sphere => cases hs
  | klein => simpa [position] using klein_closes_iff phi
  | mobius => simpa [position] using mobius_never_closes phi

theorem klein_seam_at_side : isDoublyPeriodic .klein = true ∧
    klein.position pi (Real.pi / 2) = klein.position 0 (Real.pi / 2) :=
  ⟨rfl, (position_seam .klein rfl (Real.pi / 2)).2.2.2 (.inr ⟨rfl, Real.cos_pi_div_two⟩)⟩

/- The bottle and the band are looked up as doubly periodic, and at angle zero neither closes. -/
theorem seams_torn :
    (named? "klein" = some .klein ∧ klein.isDoublyPeriodic = true ∧
      klein.position (pi : ℝ) 0 ≠ klein.position 0 0) ∧
    named? "mobius" = some .mobius ∧ mobius.isDoublyPeriodic = true ∧
      mobius.position (pi : ℝ) 0 ≠ mobius.position 0 0 := by
  refine ⟨⟨?_, rfl, ?_⟩, ?_, rfl, mobius_never_closes 0⟩
  · decide +kernel
  · intro h
    have hcos := (klein_closes_iff 0).1 h
    rw [Real.cos_zero] at hcos
    exact one_ne_zero hcos
  · decide +kernel

end ProceduralShapes.Surface
