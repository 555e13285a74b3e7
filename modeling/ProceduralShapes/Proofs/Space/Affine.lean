import Mathlib.Tactic.Ring
import ProceduralShapes.Proofs.Exact
import ProceduralShapes.Space.Transform

/-!
# Affine transforms

The image of a point does not look at the fourth row of a transform. It is the image under the
matrix only where that row is `0 0 0 1`, and then a product acts as one transform after the
other. The elementary transforms have this row and products keep it. Over a field the transforms
form a monoid.
-/

namespace ProceduralShapes.Transform

/-! ### Linear part -/

section Linear
variable {α : Type} [Scalar α]

/- The part of a transform that acts on displacements. -/
def linear (t : Transform α) (v : Vec α) : Vec α :=
  ⟨t.row0.x * v.x + t.row0.y * v.y + t.row0.z * v.z,
   t.row1.x * v.x + t.row1.y * v.y + t.row1.z * v.z,
   t.row2.x * v.x + t.row2.y * v.y + t.row2.z * v.z⟩

theorem apply_eq (t : Transform α) (p : Point α) :
    t.apply p = (t.linear p.toVec + t.translation).toPoint := rfl

end Linear

/-! ### Elementary transforms -/

section Elementary
variable {α : Type} [Scalar α]

/- The fourth row is that of the identity. -/
def IsAffine (t : Transform α) : Prop := t.row3 = ⟨0, 0, 0, 1⟩

theorem isAffine_identity : (identity : Transform α).IsAffine := rfl

theorem isAffine_translate (v : Vec α) : (translate v).IsAffine := rfl

theorem isAffine_scale (v : Vec α) : (scale v).IsAffine := rfl

variable [Trig α]

theorem isAffine_rotateX (angle : α) : (rotateX angle).IsAffine := rfl

theorem isAffine_rotateY (angle : α) : (rotateY angle).IsAffine := rfl

theorem isAffine_rotateZ (angle : α) : (rotateZ angle).IsAffine := rfl

theorem isAffine_of_rotateAbout? [SquareRoot α] [Finiteness α] [LT α] [DecidableLT α]
    {axis : Vec α} {angle : α} {t : Transform α} (h : rotateAbout? axis angle = some t) :
    t.IsAffine := by
  obtain ⟨unit, -, rfl⟩ := Option.map_eq_some_iff.1 h
  rfl

end Elementary

/-! ### Products -/

section Product
open Exact
variable {K : Type} [Field K]

theorem mul_def (a b : Transform K) : a * b = compose a b := rfl

theorem isAffine_mul {a b : Transform K} (ha : a.IsAffine) (hb : b.IsAffine) :
    (a * b).IsAffine := by
  rw [IsAffine] at ha hb
  rw [IsAffine, mul_def, compose, ha]
  simp only [rowTimes, transpose, Row.dot, hb, zero_mul, one_mul, zero_add]

/- The right factor acts first. Its fourth row must give the image a fourth coordinate of one. -/
theorem apply_product (a : Transform K) {b : Transform K} (hb : b.IsAffine) (p : Point K) :
    (a * b).apply p = a.apply (b.apply p) := by
  rw [IsAffine] at hb
  rw [mul_def]
  simp only [apply, compose, rowTimes, transpose, Row.dot, Row.atPoint, hb, Point.mk.injEq]
  refine ⟨?_, ?_, ?_⟩
  · ring
  · ring
  · ring

theorem apply_identity (p : Point K) : (identity : Transform K).apply p = p := by
  simp only [apply, identity, Row.atPoint, zero_mul, one_mul, zero_add, add_zero]

theorem compose_identity (a : Transform K) : a * identity = a := by
  simp only [mul_def, compose, rowTimes, transpose, identity, Row.dot, mul_zero, mul_one, zero_add,
    add_zero]

theorem identity_compose (a : Transform K) : identity * a = a := by
  simp only [mul_def, compose, rowTimes, transpose, identity, Row.dot, zero_mul, one_mul, zero_add,
    add_zero]

theorem compose_assoc (a b c : Transform K) : a * b * c = a * (b * c) := by
  have hrow (r : Row K) (b c : Transform K) :
      rowTimes (rowTimes r b.transpose) c.transpose = rowTimes r (compose b c).transpose := by
    simp only [rowTimes, compose, transpose, Row.dot, Row.mk.injEq]
    refine ⟨?_, ?_, ?_, ?_⟩
    · ring
    · ring
    · ring
    · ring
  simp only [mul_def]
  rw [compose, compose, compose]
  simp only [hrow]

end Product

end ProceduralShapes.Transform

/-! ### Transforms as a monoid -/

namespace ProceduralShapes.Exact

variable {K : Type} [Field K]

scoped instance monoid : Monoid (Transform K) where
  one := .identity
  mul_assoc := Transform.compose_assoc
  one_mul := Transform.identity_compose
  mul_one := Transform.compose_identity

end ProceduralShapes.Exact
