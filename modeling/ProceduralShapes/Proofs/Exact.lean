import Mathlib.Algebra.Order.Floor.Ring
import Mathlib.Algebra.Order.Field.Basic
import ProceduralShapes.Proofs.Mesh.Lattice

/-!
# Exact scalars

Statements of geometry that rounding would spoil are made over a field. Every number of a field
is finite, and the lattice cell of a number is its floor, brought into 64 bits.
-/

namespace ProceduralShapes

/-! ### Cell numbers -/

namespace Cell

/- The whole number nearest to `n` that 64 bits hold. -/
def clamp (n : Int) : Int64 :=
  Int64.ofInt (max Int64.minValue.toInt (min Int64.maxValue.toInt n))

theorem toInt_clamp (n : Int) :
    (clamp n).toInt = max Int64.minValue.toInt (min Int64.maxValue.toInt n) := by
  have hmin : Int64.minValue.toInt = -2 ^ 63 := rfl
  have hmax : Int64.maxValue.toInt = 2 ^ 63 - 1 := rfl
  exact Int64.toInt_ofInt_of_le (by omega) (by omega)

/- Bringing two whole numbers into the range moves them no further apart. -/
theorem clamp_mem_around {m n : Int} (hlo : n - 1 ≤ m) (hhi : m ≤ n + 1) :
    clamp m ∈ around (clamp n) := by
  rw [mem_around, toInt_clamp, toInt_clamp]
  have hmin : Int64.minValue.toInt = -2 ^ 63 := rfl
  have hmax : Int64.maxValue.toInt = 2 ^ 63 - 1 := rfl
  omega

end Cell

/-! ### Fields -/

namespace Exact

variable {K : Type} [Field K]

scoped instance scalar : Scalar K where

scoped instance finiteness : Finiteness K := ⟨fun _ => true⟩

scoped instance cellIndex [LinearOrder K] [FloorRing K] : CellIndex K :=
  ⟨fun x => Cell.clamp ⌊x⌋⟩

end Exact

/-! ### Floors of near numbers -/

section Floor
variable {K : Type} [Field K] [LinearOrder K] [IsStrictOrderedRing K] [FloorRing K]

theorem floor_le_floor_add_one {x y : K} (h : x ≤ y + 1) : ⌊x⌋ ≤ ⌊y⌋ + 1 := by
  have hmono : ⌊x⌋ ≤ ⌊y + 1⌋ := Int.floor_mono h
  rwa [Int.floor_add_one] at hmono

/- In a lattice as wide as `eps`, numbers at most `eps` apart lie in the same or in adjacent
cells. -/
theorem floor_le_of_sub_le {x y eps : K} (heps : 0 < eps) (h : x - y ≤ eps) :
    ⌊x * (1 / eps)⌋ ≤ ⌊y * (1 / eps)⌋ + 1 := by
  apply floor_le_floor_add_one
  rw [mul_one_div, mul_one_div, div_add_one (ne_of_gt heps), div_le_div_iff_of_pos_right heps]
  exact sub_le_iff_le_add'.1 h

theorem clamp_floor_mem_around {x y eps : K} (heps : 0 < eps) (h : |x - y| ≤ eps) :
    Cell.clamp ⌊x * (1 / eps)⌋ ∈ Cell.around (Cell.clamp ⌊y * (1 / eps)⌋) := by
  obtain ⟨hlo, hhi⟩ := abs_sub_le_iff.1 h
  have hx : ⌊x * (1 / eps)⌋ ≤ ⌊y * (1 / eps)⌋ + 1 := floor_le_of_sub_le heps hlo
  have hy : ⌊y * (1 / eps)⌋ ≤ ⌊x * (1 / eps)⌋ + 1 := floor_le_of_sub_le heps hhi
  exact Cell.clamp_mem_around (sub_le_iff_le_add.2 hy) hx

end Floor

end ProceduralShapes
