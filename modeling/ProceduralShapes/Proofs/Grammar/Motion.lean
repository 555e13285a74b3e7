import Mathlib.Algebra.BigOperators.Group.List.Basic
import Mathlib.Tactic.Ring
import ProceduralShapes.Grammar.Spec
import ProceduralShapes.Proofs.Fallible
import ProceduralShapes.Proofs.Space.Affine
import ProceduralShapes.Proofs.Text.Words

/-!
# The motions of a spec

A spec is read as a sequence of groups, each an operator followed by as many numbers as it takes
(`Means`), so two specs written one behind the other mean the motions of both. Over a field the
transform of a spec moves a point by its motions from the last to the first, and the transform of
two specs written one behind the other is the product of theirs.
-/

namespace ProceduralShapes

open Decimal (Numeral read?)

/-! ### Groups of words -/

namespace Spec

section Reading
variable {α : Type} [Numeral α]

theorem operands_append {args : List String} {xs : List α}
    (h : List.Forall₂ (fun w x => read? w = some x) args xs) (rest : List String) :
    operands args.length (args ++ rest) = .ok xs := by
  induction h with
  | nil => rfl
  | cons hword _ ih =>
    simp only [List.length_cons, List.cons_append, operands, hword, ih]
    rfl

theorem exists_of_operands {k : Nat} {ws : List String} {xs : List α}
    (h : operands k ws = .ok xs) : ∃ args rest, ws = args ++ rest ∧ args.length = k ∧
      List.Forall₂ (fun w x => read? w = some x) args xs := by
  induction k generalizing ws xs with
  | zero =>
    cases h
    exact ⟨[], ws, rfl, rfl, .nil⟩
  | succ k ih =>
    cases ws with
    | nil => cases h
    | cons word ws =>
      cases hword : read? (α := α) word with
      | none => simp [operands, hword] at h
      | some x =>
        simp only [operands, hword] at h
        obtain ⟨ys, htail, rfl⟩ := Fallible.map_eq_ok_iff.1 h
        obtain ⟨args, rest, rfl, rfl, hargs⟩ := ih htail
        exact ⟨word :: args, rest, rfl, rfl, .cons hword hargs⟩

variable [Scalar α]

/- The words are groups of an operator and its operands, and mean these motions. -/
inductive Means : List String → List (Motion α) → Prop
  | nil : Means [] []
  | cons {word : String} {op : Operator} {args : List String} {xs : List α} {rest : List String}
      {ms : List (Motion α)} (hop : Operator.ofWord? word = some op)
      (hlen : args.length = op.arity) (hargs : List.Forall₂ (fun w x => read? w = some x) args xs)
      (hrest : Means rest ms) : Means (word :: (args ++ rest)) (op.motion (axes xs) :: ms)

/- Behind words that mean some motions the others are read on. -/
theorem motionsFrom_append_of_means {ws : List String} {ms : List (Motion α)} (h : Means ws ms)
    (spec : String) (position : Nat) (rest : List String) :
    motionsFrom spec position (ws ++ rest) =
      (motionsFrom spec (position + ws.length) rest).map (ms ++ ·) := by
  induction h generalizing position with
  | nil =>
    show motionsFrom spec position rest = (motionsFrom spec position rest).map ([] ++ ·)
    cases motionsFrom (α := α) spec position rest with
    | error e => rfl
    | ok later => rfl
  | @cons word op args xs ws ms hop hlen hargs _ ih =>
    have hoperands := operands_append hargs (ws ++ rest)
    have hposition : position + 1 + op.arity + ws.length =
        position + (word :: (args ++ ws)).length := by
      rw [List.length_cons, List.length_append, hlen]
      omega
    rw [hlen] at hoperands
    rw [List.cons_append, List.append_assoc, motionsFrom]
    simp only [hop, hoperands]
    rw [← hlen, List.drop_left, hlen, ih, hposition]
    cases motionsFrom (α := α) spec (position + (word :: (args ++ ws)).length) rest with
    | error e => rfl
    | ok later => rfl

theorem motionsFrom_of_means {ws : List String} {ms : List (Motion α)} (h : Means ws ms)
    (spec : String) (position : Nat) : motionsFrom spec position ws = .ok ms := by
  have happend := motionsFrom_append_of_means h spec position []
  rw [List.append_nil, motionsFrom] at happend
  rw [happend, Except.map, List.append_nil]

theorem means_of_motionsFrom {spec : String} {position : Nat} {ws : List String}
    {ms : List (Motion α)} (h : motionsFrom spec position ws = .ok ms) : Means ws ms := by
  fun_induction motionsFrom (α := α) spec position ws generalizing ms with
  | case1 =>
    cases h
    exact .nil
  | case2 => cases h
  | case3 => cases h
  | case4 => cases h
  | case5 position word rest op hop xs hxs ih =>
    obtain ⟨args, rest, rfl, hlen, hargs⟩ := exists_of_operands hxs
    rw [← hlen, List.drop_left] at h ih
    obtain ⟨ms', hms, rfl⟩ := Fallible.map_eq_ok_iff.1 h
    exact .cons hop hlen hargs (ih hms)

theorem Means.append {ws ws' : List String} {ms ms' : List (Motion α)} (h : Means ws ms)
    (h' : Means ws' ms') : Means (ws ++ ws') (ms ++ ms') := by
  induction h with
  | nil => exact h'
  | cons hop hlen hargs _ ih =>
    rw [List.cons_append, List.append_assoc]
    exact .cons hop hlen hargs ih

theorem motions_append {s t : String} {ms ms' : List (Motion α)} (h : motions s = .ok ms)
    (h' : motions t = .ok ms') : motions (s ++ " " ++ t) = .ok (ms ++ ms') := by
  rw [motions, Text.words_append]
  exact motionsFrom_of_means ((means_of_motionsFrom h).append (means_of_motionsFrom h')) _ _

theorem transform_eq_ok_iff [Trig α] {spec : String} {t : Transform α} :
    transform spec = .ok t ↔ ∃ ms, motions spec = .ok ms ∧ product ms = t :=
  Fallible.map_eq_ok_iff

end Reading

end Spec

/-! ### Motions of points -/

namespace Motion

variable {α : Type} [Scalar α] [Trig α]

/- Where a motion takes a point. -/
def act : Motion α → Point α → Point α
  | .translate offset, p => p + offset
  | .rotateX degrees, p =>
    let angle := radians degrees
    ⟨p.x, cos angle * p.y - sin angle * p.z, sin angle * p.y + cos angle * p.z⟩
  | .rotateY degrees, p =>
    let angle := radians degrees
    ⟨cos angle * p.x + sin angle * p.z, p.y, cos angle * p.z - sin angle * p.x⟩
  | .rotateZ degrees, p =>
    let angle := radians degrees
    ⟨cos angle * p.x - sin angle * p.y, sin angle * p.x + cos angle * p.y, p.z⟩
  | .scale factors, p => ⟨p.x * factors.x, p.y * factors.y, p.z * factors.z⟩

theorem isAffine_transform (m : Motion α) : m.transform.IsAffine := by
  cases m with
  | translate offset => exact Transform.isAffine_translate offset
  | rotateX degrees => exact Transform.isAffine_rotateX _
  | rotateY degrees => exact Transform.isAffine_rotateY _
  | rotateZ degrees => exact Transform.isAffine_rotateZ _
  | scale factors => exact Transform.isAffine_scale factors

end Motion

section Product
open Exact
variable {K : Type} [Field K] [Trig K]

theorem Motion.apply_transform (m : Motion K) (p : Point K) : m.transform.apply p = m.act p := by
  cases m with
  | translate offset =>
    simp only [Motion.transform, Transform.apply, Transform.translate, Row.atPoint, Motion.act]
    simp only [one_mul, zero_mul, add_zero, zero_add]
    rfl
  | rotateX degrees =>
    simp only [Motion.transform, Transform.apply, Transform.rotateX, Transform.turnX, Row.atPoint,
      Motion.act, Point.mk.injEq]
    refine ⟨?_, ?_, ?_⟩
    · ring
    · ring
    · ring
  | rotateY degrees =>
    simp only [Motion.transform, Transform.apply, Transform.rotateY, Transform.turnY, Row.atPoint,
      Motion.act, Point.mk.injEq]
    refine ⟨?_, ?_, ?_⟩
    · ring
    · ring
    · ring
  | rotateZ degrees =>
    simp only [Motion.transform, Transform.apply, Transform.rotateZ, Transform.turnZ, Row.atPoint,
      Motion.act, Point.mk.injEq]
    refine ⟨?_, ?_, ?_⟩
    · ring
    · ring
    · ring
  | scale factors =>
    simp only [Motion.transform, Transform.apply, Transform.scale, Row.atPoint, Motion.act,
      Point.mk.injEq]
    refine ⟨?_, ?_, ?_⟩
    · ring
    · ring
    · ring

namespace Spec

theorem product_eq_prod (ms : List (Motion K)) : product ms = (ms.map Motion.transform).prod := by
  rw [List.prod_eq_foldl, List.foldl_map]
  rfl

theorem isAffine_product (ms : List (Motion K)) : (product ms).IsAffine := by
  rw [product_eq_prod]
  induction ms with
  | nil => exact Transform.isAffine_identity
  | cons m ms ih =>
    rw [List.map_cons, List.prod_cons]
    exact Transform.isAffine_mul m.isAffine_transform ih

/- The last motion is the first to act. -/
theorem apply_product (ms : List (Motion K)) (p : Point K) :
    (product ms).apply p = ms.foldr Motion.act p := by
  induction ms with
  | nil => exact Transform.apply_identity p
  | cons m ms ih =>
    have hcons : product (m :: ms) = m.transform * product ms := by
      rw [product_eq_prod, product_eq_prod, List.map_cons, List.prod_cons]
    rw [hcons, Transform.apply_product _ (isAffine_product ms), ih, Motion.apply_transform]
    rfl

theorem product_append (ms ms' : List (Motion K)) :
    product (ms ++ ms') = product ms * product ms' := by
  rw [product_eq_prod, product_eq_prod, product_eq_prod, List.map_append, List.prod_append]

theorem isAffine_of_transform [Numeral K] {spec : String} {t : Transform K}
    (h : transform spec = .ok t) : t.IsAffine := by
  obtain ⟨ms, -, rfl⟩ := transform_eq_ok_iff.1 h
  exact isAffine_product ms

theorem transform_append [Numeral K] {s t : String} {a b : Transform K}
    (ha : transform s = .ok a) (hb : transform t = .ok b) :
    transform (s ++ " " ++ t) = .ok (a * b) := by
  obtain ⟨ms, hms, rfl⟩ := transform_eq_ok_iff.1 ha
  obtain ⟨ms', hms', rfl⟩ := transform_eq_ok_iff.1 hb
  exact transform_eq_ok_iff.2 ⟨ms ++ ms', motions_append hms hms', product_append ms ms'⟩

end Spec

end Product

end ProceduralShapes
