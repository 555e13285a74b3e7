import ProceduralShapes.Space.Transform

/-!
# Tolerances

Two values are near when they differ by at most `eps`: numbers by absolute difference,
points by distance (compared as squares), transforms entry by entry.
-/

namespace ProceduralShapes

structure Tolerance (α : Type) where
  eps : α

namespace Tolerance

variable {α : Type} [Scalar α]

/-- One part in 10⁹. -/
def fine : Tolerance α := ⟨1 / (1000000000 : Nat)⟩

def weld : Tolerance α := fine

instance : Inhabited (Tolerance α) := ⟨fine⟩

def epsSquared (t : Tolerance α) : α := t.eps * t.eps

variable [LE α] [DecidableLE α]

def nearPoint (t : Tolerance α) (p q : Point α) : Bool :=
  (p - q : Vec α).lengthSquared ≤ t.epsSquared

variable [AbsoluteValue α]

def nearScalar (t : Tolerance α) (a b : α) : Bool := AbsoluteValue.abs (a - b) ≤ t.eps

def nearRow (t : Tolerance α) (r s : Row α) : Bool :=
  t.nearScalar r.x s.x && t.nearScalar r.y s.y && t.nearScalar r.z s.z && t.nearScalar r.w s.w

def nearTransform (t : Tolerance α) (a b : Transform α) : Bool :=
  t.nearRow a.row0 b.row0 && t.nearRow a.row1 b.row1 && t.nearRow a.row2 b.row2 &&
    t.nearRow a.row3 b.row3

end Tolerance

end ProceduralShapes
