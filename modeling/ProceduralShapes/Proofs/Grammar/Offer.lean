import ProceduralShapes.Proofs.Grammar.Declaration
import ProceduralShapes.Proofs.Grammar.Recursion

/-!
# What can be picked

Of a variant that can be picked four things matter: its weight, its depth limit, its successor and
its actions, written out one by one. What a pick gives depends on these alone, on the rule names and
on the source (`pick_offer`): variants without weight take no share of the numbers drawn.
-/

namespace ProceduralShapes

variable {α σ β γ : Type}

/-! ### Weights -/

theorem total_filter_pos (weight : β → Nat) (items : List β) :
    total weight (items.filter fun item => 0 < weight item) = total weight items := by
  induction items with
  | nil => rfl
  | cons item rest ih =>
    by_cases hpos : 0 < weight item
    · simp only [List.filter_cons, hpos, decide_true, if_true, total_cons, ih]
    · simp only [List.filter_cons, hpos, decide_false, Bool.false_eq_true, if_false, total_cons, ih]
      omega

namespace Weighted

theorem choose_map (weight : γ → Nat) (h : β → γ) (items : List β) (n : Nat) :
    choose weight (items.map h) n = (choose (fun item => weight (h item)) items n).map h := by
  induction items generalizing n with
  | nil => rfl
  | cons item rest ih =>
    simp only [List.map_cons, choose]
    split
    · rfl
    · exact ih _

/- An item without weight is passed over. -/
theorem choose_filter_pos (weight : β → Nat) (items : List β) (n : Nat) :
    choose weight (items.filter fun item => 0 < weight item) n = choose weight items n := by
  induction items generalizing n with
  | nil => rfl
  | cons item rest ih =>
    by_cases hpos : 0 < weight item
    · simp only [List.filter_cons, hpos, decide_true, if_true, choose, ih]
    · have hzero : weight item = 0 := Nat.eq_zero_of_not_pos hpos
      simp only [List.filter_cons, decide_false, Bool.false_eq_true, if_false, choose, ih,
        hzero, Nat.not_lt_zero, Nat.sub_zero]

end Weighted

/-! ### Offers -/

/- What matters of a variant that can be picked. -/
structure Offer (α : Type) where
  weight : UInt32
  maxDepth? : Option Nat
  successor? : Option String
  repetitions : List (Action × Transform α)

def Variant.offer (v : Variant α) : Offer α :=
  ⟨v.weight, v.maxDepth?, v.successor?, v.repetitions⟩

def Offer.share (o : Offer α) : Nat := o.weight.toNat

/- The variant with every statement written as often as it is done. -/
def Variant.unrolled (v : Variant α) : Variant α :=
  { v with
    statements := v.statements.flatMap fun s => List.replicate s.count { s with count := 1 } }

theorem repetitions_unrolled (v : Variant α) : v.unrolled.repetitions = v.repetitions := by
  unfold Variant.unrolled Variant.repetitions
  induction v.statements with
  | nil => rfl
  | cons s rest ih =>
    have hones : ∀ n, (List.replicate n { s with count := 1 }).flatMap
        (fun once : Statement α => List.replicate once.count (once.action, once.transform)) =
        List.replicate n (s.action, s.transform) := by
      intro n
      induction n with
      | zero => rfl
      | succ n ih =>
        rw [List.replicate_succ, List.flatMap_cons, ih]
        rfl
    rw [List.flatMap_cons, List.flatMap_append, hones, List.flatMap_cons]
    exact congrArg _ ih

theorem offer_unrolled (v : Variant α) : v.unrolled.offer = v.offer := by
  rw [Variant.offer, repetitions_unrolled]
  rfl

/- The offers of the variants that have a weight, in their order. -/
def offersOf (vs : List (Variant α)) : List (Offer α) :=
  (vs.map Variant.offer).filter fun o => 0 < o.share

theorem offersOf_append (vs ws : List (Variant α)) :
    offersOf (vs ++ ws) = offersOf vs ++ offersOf ws := by
  simp only [offersOf, List.map_append, List.filter_append]

theorem offersOf_of_weight_zero {v : Variant α} (hzero : v.weight = 0) : offersOf [v] = [] := by
  simp [offersOf, Variant.offer, Offer.share, hzero]

theorem offersOf_map_unrolled (vs : List (Variant α)) :
    offersOf (vs.map Variant.unrolled) = offersOf vs := by
  have hoffer : Variant.offer ∘ Variant.unrolled = (Variant.offer : Variant α → Offer α) :=
    funext offer_unrolled
  rw [offersOf, List.map_map, hoffer]
  rfl

namespace Grammar

variable {g : Grammar α}

/- What the name stands for in the grammar. -/
def offers (g : Grammar α) (name : String) : List (Offer α) :=
  offersOf ((g.named name).map g.variant)

theorem offers_eq (h : g.Indexed) (name : String) :
    g.offers name = offersOf (g.variants.toList.filter fun v => v.name = name) := by
  rw [offers, h.named_eq]

def offer (g : Grammar α) (i : g.Ref) : Offer α := (g.variant i).offer

theorem total_offers (g : Grammar α) (name : String) :
    total Offer.share (g.offers name) = total g.weight (g.named name) := by
  rw [offers, offersOf, total_filter_pos, total_map, total_map]
  rfl

theorem choose_offers (g : Grammar α) (name : String) (n : Nat) :
    Weighted.choose Offer.share (g.offers name) n =
      (Weighted.choose g.weight (g.named name) n).map g.offer := by
  rw [offers, offersOf, Weighted.choose_filter_pos, Weighted.choose_map, Weighted.choose_map,
    Option.map_map]
  rfl

/- Draws one of the offers that a name stands for. -/
def draw [RandomSource σ] (name : String) (os : List (Offer α)) (source : σ) :
    Except PickError (Offer α × σ) :=
  if total Offer.share os = 0 then .error (.noSelectableVariant name)
  else
    let (n, source) := RandomSource.below (total Offer.share os) source
    match Weighted.choose Offer.share os n with
    | some o => .ok (o, source)
    | none => .error (.noSelectableVariant name)

theorem pick_offer [RandomSource σ] (g : Grammar α) (name : String) (source : σ) :
    (g.pick name source).map (fun picked => (g.offer picked.1, picked.2)) =
      if name ∈ g.ruleNames then draw name (g.offers name) source
      else .error (.noSuchRule name (closest? name g.ruleNames)) := by
  simp only [mem_ruleNames]
  rw [pick_eq]
  unfold draw
  rw [total_offers]
  split
  · split
    · rfl
    · obtain ⟨n, next⟩ := RandomSource.below (total g.weight (g.named name)) source
      dsimp only
      rw [choose_offers]
      cases Weighted.choose g.weight (g.named name) n with
      | none => rfl
      | some i => rfl
  · rfl

end Grammar

end ProceduralShapes
