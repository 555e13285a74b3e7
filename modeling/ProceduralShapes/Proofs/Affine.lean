import ProceduralShapes.Proofs.Grammar.Motion
import ProceduralShapes.Proofs.Grammar.Placement
import ProceduralShapes.Proofs.Reals
import ProceduralShapes.Proofs.Rib.History

/-!
# Where transforms come from

Transforms come from specs, from patch files and from evaluations of grammars. All of them begin
with the identity and multiply by elementary transforms, so in exact arithmetic all are affine, and
a product places a point by one factor after the other.
-/

namespace ProceduralShapes

open Decimal (Numeral)

/-! ### Patch files -/

namespace Rib

theorem isAffine_of_read {α : Type} [Scalar α] [Trig α] [SquareRoot α] [Finiteness α] [LT α]
    [DecidableLT α] [Numeral α] {line : Nat} {name : String} {args : List String} {t : Transform α}
    (h : Directive.read line name args = .ok (.move t)) : t.IsAffine := by
  unfold Directive.read at h
  split at h
  · cases h
  · cases h
  · obtain ⟨v, -, hmove⟩ := Fallible.map_eq_ok_iff.1 h
    cases hmove
    exact Transform.isAffine_translate v
  · obtain ⟨v, -, hmove⟩ := Fallible.map_eq_ok_iff.1 h
    cases hmove
    exact Transform.isAffine_scale v
  · obtain ⟨⟨degrees, axis⟩, -, hturn⟩ := Fallible.bind_eq_ok_iff.1 h
    dsimp only at hturn
    split at hturn
    · rename_i u hrotate
      cases hturn
      exact Transform.isAffine_of_rotateAbout? hrotate
    · cases hturn
  · obtain ⟨values, -, hmove⟩ := Fallible.map_eq_ok_iff.1 h
    cases hmove
  · cases h

/- The current transform and those that open blocks saved are affine. -/
structure State.IsAffine {α : Type} [Scalar α] (s : State α) : Prop where
  current : s.current.IsAffine
  saved : ∀ t ∈ s.saved, t.IsAffine

section Exact
open Exact
variable {K : Type} [Field K] {s s' : State K}

theorem State.Step.isAffine {line : Nat} {d : Directive K} (hstep : s.Step line d s')
    (hs : s.IsAffine) (hd : ∀ t, d = .move t → t.IsAffine) : s'.IsAffine := by
  cases hstep with
  | begin =>
    refine ⟨hs.current, ?_⟩
    intro t ht
    rcases List.mem_cons.1 ht with rfl | ht
    · exact hs.current
    · exact hs.saved t ht
  | @finish t rest hsaved =>
    have hall := hs.saved
    rw [hsaved] at hall
    exact ⟨hall t List.mem_cons_self, fun u hu => hall u (List.mem_cons_of_mem _ hu)⟩
  | move t => exact ⟨Transform.isAffine_mul hs.current (hd t rfl), hs.saved⟩
  | patch _ => exact ⟨hs.current, hs.saved⟩
  | other name => exact ⟨hs.current, hs.saved⟩

variable [Trig K] [SquareRoot K] [LT K] [DecidableLT K] [Numeral K]

theorem Said.isAffine {line : Nat} {t : Transform K} (h : Said (line, .move t)) : t.IsAffine := by
  cases h with
  | read hread _ => exact isAffine_of_read hread

theorem isAffine_readLines (texts : List String) :
    (readLines texts : Reading K).state.IsAffine := by
  have hinitial : (State.initial : State K).IsAffine :=
    ⟨Transform.isAffine_identity, by simp [State.initial]⟩
  have hread := readLines_induction (P := fun _ s => s.IsAffine) hinitial
    (fun done s line d s' hs hsaid hstep => hstep.isAffine hs (by
      rintro t rfl
      exact hsaid.isAffine)) texts
  rcases hread with ⟨-, hidle⟩ | ⟨_, _, _, -, hidle, -⟩
  · exact ⟨hidle.current, hidle.saved⟩
  · exact ⟨hidle.current, hidle.saved⟩

end Exact

end Rib

/-! ### All three -/

section Exact
open Exact
variable {K : Type} [Field K] [Trig K] [Numeral K]

/- Every statement has the transform of some spec. -/
def Grammar.HasSpecs (g : Grammar K) : Prop :=
  ∀ v ∈ g.variants, ∀ s ∈ v.statements, ∃ spec, Spec.transform spec = .ok s.transform

theorem Grammar.HasSpecs.preserves {g : Grammar K} (h : g.HasSpecs) :
    g.Preserves Transform.IsAffine := by
  refine ⟨Transform.isAffine_identity, ?_⟩
  intro v hv s hs t ht
  obtain ⟨spec, hspec⟩ := h v hv s hs
  exact Transform.isAffine_mul ht (Spec.isAffine_of_transform hspec)

/- All transforms are affine, so products act as one factor after the other, the last motion of a
spec acts first, and specs written one behind the other multiply. -/
theorem transforms_affine [SquareRoot K] [LT K] [DecidableLT K] :
    (∀ spec (t : Transform K), Spec.transform spec = .ok t → t.IsAffine) ∧
    (∀ texts, (Rib.readLines texts : Rib.Reading K).state.current.IsAffine ∧
      ∀ t ∈ (Rib.readLines texts : Rib.Reading K).state.saved, t.IsAffine) ∧
    (∀ (σ : Type) [RandomSource σ] (g : Grammar K) (interval : Nat) (source : σ)
      (e : Grammar.Evaluation K), g.HasSpecs → (g.evaluateFrom interval source).result = .ok e →
        ∀ p ∈ e.placed, p.transform.IsAffine) ∧
    (∀ (a b : Transform K) (p : Point K), b.IsAffine → (a * b).apply p = a.apply (b.apply p)) ∧
    (∀ spec (ms : List (Motion K)), Spec.motions spec = .ok ms →
      ∃ t, Spec.transform spec = .ok t ∧ ∀ p, t.apply p = ms.foldr Motion.act p) ∧
    ∀ s t (a b : Transform K), Spec.transform s = .ok a → Spec.transform t = .ok b →
      Spec.transform (s ++ " " ++ t) = .ok (a * b) := by
  refine ⟨?_, ?_, ?_, ?_, ?_, ?_⟩
  · intro spec t h
    exact Spec.isAffine_of_transform h
  · intro texts
    have hread := Rib.isAffine_readLines (K := K) texts
    exact ⟨hread.current, hread.saved⟩
  · intro σ _ g interval source e hspecs he
    exact Grammar.placed_of_preserves hspecs.preserves he
  · intro a b p hb
    exact Transform.apply_product a hb p
  · intro spec ms hms
    exact ⟨Spec.product ms, Spec.transform_eq_ok_iff.2 ⟨ms, hms, rfl⟩, Spec.apply_product ms⟩
  · intro s t a b ha hb
    exact Spec.transform_append ha hb

end Exact

/-! ### Two boxes in a row -/

section Boxes
open Exact

theorem motions_of_words {α : Type} [Scalar α] [Numeral α] {spec word arg : String}
    {op : Spec.Operator} {x : α} (hwords : Text.words spec = [word, arg])
    (hop : Spec.Operator.ofWord? word = some op) (harity : op.arity = 1)
    (hx : Decimal.read? arg = some x) : Spec.motions spec = .ok [op.motion (Spec.axes [x])] := by
  have hmeans : Spec.Means (word :: ([arg] ++ [])) [op.motion (Spec.axes [x])] :=
    .cons hop harity.symm (.cons hx .nil) .nil
  rw [Spec.motions, hwords]
  exact Spec.motionsFrom_of_means hmeans spec 0

noncomputable def shift : Motion ℝ := .translate ⟨(1 : Nat), 0, 0⟩

noncomputable def stretch : Motion ℝ := .scale ⟨(2 : Nat), 1, 1⟩

theorem motions_shift : Spec.motions "tx 1" = .ok [shift] := by
  have hwords : Text.words "tx 1" = ["tx", "1"] := by decide
  have hliteral : Decimal.Literal.read? "1" = some ⟨false, .finite 1 0⟩ := by decide
  exact motions_of_words hwords rfl rfl (read?_of_digits hliteral)

theorem motions_stretch : Spec.motions "sx 2" = .ok [stretch] := by
  have hwords : Text.words "sx 2" = ["sx", "2"] := by decide
  have hliteral : Decimal.Literal.read? "2" = some ⟨false, .finite 2 0⟩ := by decide
  exact motions_of_words hwords rfl rfl (read?_of_digits hliteral)

theorem transform_shift : Spec.transform "tx 1" = .ok (Spec.product [shift]) :=
  Spec.transform_eq_ok_iff.2 ⟨_, motions_shift, rfl⟩

theorem transform_stretch : Spec.transform "sx 2" = .ok (Spec.product [stretch]) :=
  Spec.transform_eq_ok_iff.2 ⟨_, motions_stretch, rfl⟩

noncomputable def boxRow : Statement ℝ := ⟨.place "box", Spec.product [shift], 2⟩

noncomputable def boxes : Grammar ℝ :=
  Grammar.add { maxDepth := 1, maxDepth_pos := Nat.one_pos }
    { name := Grammar.entryRule, statements := [boxRow] }

theorem hasSpecs_boxes : boxes.HasSpecs := by
  intro v hv s hs
  have hvariants : boxes.variants = #[{ name := Grammar.entryRule, statements := [boxRow] }] := rfl
  rw [hvariants, Array.mem_singleton] at hv
  subst hv
  rw [List.mem_singleton.1 hs]
  exact ⟨"tx 1", transform_shift⟩

theorem exists_evaluation_boxes : ∃ e : Grammar.Evaluation ℝ,
    (boxes.evaluateFrom 0 (ChaCha.Generator.ofSeed 7)).result = .ok e ∧ e.placed.size = 2 := by
  have hpick : (boxes.pick Grammar.entryRule (ChaCha.Generator.ofSeed 7)).isOk = true := by
    decide +kernel
  cases hchosen : boxes.pick Grammar.entryRule (ChaCha.Generator.ofSeed 7) with
  | error e =>
    rw [hchosen] at hpick
    cases hpick
  | ok chosen =>
    obtain ⟨i, source⟩ := chosen
    have hi : i = ⟨0, Nat.one_pos⟩ := Fin.fin_one_eq_zero i
    subst hi
    let entry : Grammar.Frame boxes := ⟨⟨0, Nat.one_pos⟩, 0, 0, .identity⟩
    let start : Grammar.Run ℝ ChaCha.Generator := { source }
    obtain ⟨next, hstep, hsize⟩ : ∃ next, entry.step 0 (start.arrive 0) = .ok (#[], next) ∧
        next.placed.size = 2 := ⟨_, rfl, rfl⟩
    have hloop : Grammar.loop 0 #[entry] start =
        ⟨next.notified, .ok ⟨next.placed, next.stats⟩⟩ := by
      refine (Grammar.loop_push #[] entry start).trans ?_
      rw [Array.size_empty, hstep]
      exact Grammar.loop_empty next
    refine ⟨⟨next.placed, next.stats⟩, ?_, hsize⟩
    rw [Grammar.evaluateFrom, hchosen]
    exact congrArg Grammar.Outcome.result hloop

theorem boxes_affine :
    (∃ e : Grammar.Evaluation ℝ, boxes.HasSpecs ∧
      (boxes.evaluateFrom 0 (ChaCha.Generator.ofSeed 7)).result = .ok e ∧ e.placed.size = 2 ∧
      ∀ p ∈ e.placed, p.transform.IsAffine) ∧
    (Spec.product [stretch]).IsAffine ∧
    (∀ p, (Spec.product [shift] * Spec.product [stretch]).apply p =
      (Spec.product [shift]).apply ((Spec.product [stretch]).apply p)) ∧
    (∃ t, Spec.transform "tx 1" = .ok t ∧ ∀ p, t.apply p = shift.act p) ∧
    Spec.transform ("tx 1" ++ " " ++ "sx 2") =
      .ok (Spec.product [shift] * Spec.product [stretch]) := by
  obtain ⟨haffine, -, hplaced, hproduct, hmotions, happend⟩ := transforms_affine (K := ℝ)
  have hstretch := haffine _ _ transform_stretch
  obtain ⟨e, he, hsize⟩ := exists_evaluation_boxes
  refine ⟨⟨e, hasSpecs_boxes, he, hsize, ?_⟩, hstretch, ?_, ?_, ?_⟩
  · exact hplaced ChaCha.Generator boxes 0 _ e hasSpecs_boxes he
  · intro p
    exact hproduct _ _ p hstretch
  · exact hmotions _ _ motions_shift
  · exact happend _ _ _ _ transform_shift transform_stretch

end Boxes

end ProceduralShapes
