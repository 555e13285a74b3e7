import ProceduralShapes.Total

/-!
# Sources of random numbers

A source gives numbers below a bound one after the other. A weighted choice spends one of
them: the items divide the numbers below their total weight among themselves, each taking as
many as its weight, in order.
-/

namespace ProceduralShapes

class RandomSource (σ : Type) where
  /-- A number below a positive bound, and the source after the draw. -/
  below : Nat → σ → Nat × σ

namespace Weighted

variable {β : Type}

/-- The item whose share holds the number `n`. -/
def choose (weight : β → Nat) : List β → Nat → Option β
  | [], _ => none
  | item :: rest, n => if n < weight item then some item else choose weight rest (n - weight item)

end Weighted

end ProceduralShapes
