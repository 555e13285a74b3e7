import Mathlib.Analysis.SpecialFunctions.Trigonometric.Basic
import ProceduralShapes.Decimal.Literal
import ProceduralShapes.Proofs.Exact

/-!
# Real numbers

Sine, cosine and the half turn of the real numbers, and the exact value of a literal. A literal
that is infinite or undefined has none.
-/

namespace ProceduralShapes

namespace Decimal

noncomputable def Magnitude.value? : Magnitude → Option ℝ
  | .finite digits exponent => some (digits * 10 ^ exponent)
  | .infinite => none
  | .undefined => none

noncomputable def Literal.value? (l : Literal) : Option ℝ :=
  l.magnitude.value?.map fun x => if l.negative then -x else x

end Decimal

namespace Exact

noncomputable scoped instance trig : Trig ℝ := ⟨Real.sin, Real.cos, Real.pi⟩

theorem sin_def (x : ℝ) : sin x = Real.sin x := rfl

theorem cos_def (x : ℝ) : cos x = Real.cos x := rfl

theorem pi_def : (pi : ℝ) = Real.pi := rfl

theorem tau_def : (tau : ℝ) = 2 * Real.pi := by
  rw [tau, pi_def, Nat.cast_ofNat]

noncomputable scoped instance squareRoot : SquareRoot ℝ := ⟨Real.sqrt⟩

noncomputable scoped instance numeral : Decimal.Numeral ℝ :=
  ⟨fun s => (Decimal.Literal.read? s).bind Decimal.Literal.value?⟩

theorem read?_of_digits {s : String} {n : Nat}
    (h : Decimal.Literal.read? s = some ⟨false, .finite n 0⟩) :
    (Decimal.read? s : Option ℝ) = some n := by
  simp [Decimal.read?, h, Decimal.Literal.value?, Decimal.Magnitude.value?]

end Exact

end ProceduralShapes
