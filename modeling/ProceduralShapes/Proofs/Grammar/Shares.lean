import Mathlib.Algebra.BigOperators.Fin
import Mathlib.Order.Interval.Finset.Nat
import ProceduralShapes.Proofs.Grammar.Declaration
import ProceduralShapes.Proofs.Random.Range

/-!
# Shares of the numbers drawn

The variants of a name divide the numbers below their total weight among themselves, in the order of
their declarations and each as many as its weight. A number in range picks the variant whose share it
lies in. The arithmetic of 64 bits is enough for that: fewer than 2 ^ 32 weights below 2 ^ 32 do not
overflow, and a weight is only taken off a number that is no less (`pick64?_eq`).
-/

namespace ProceduralShapes

variable {α β σ : Type}

/-! ### Arithmetic of 64 bits -/

/- The sum, unless it overflows. -/
def add? (a b : UInt64) : Option UInt64 :=
  if a.toBitVec.uaddOverflow b.toBitVec then none else some (a + b)

/- The difference, unless it goes below zero. -/
def sub? (a b : UInt64) : Option UInt64 :=
  if a.toBitVec.usubOverflow b.toBitVec then none else some (a - b)

theorem add?_eq_some_iff {a b c : UInt64} : add? a b = some c ↔ a.toNat + b.toNat = c.toNat := by
  have hc := c.toNat_lt
  unfold add? BitVec.uaddOverflow
  rw [UInt64.toNat_toBitVec, UInt64.toNat_toBitVec]
  by_cases hfits : a.toNat + b.toNat < 2 ^ 64
  · rw [if_neg (by simpa using hfits), Option.some.injEq, ← UInt64.toNat_inj, UInt64.toNat_add,
      Nat.mod_eq_of_lt hfits]
  · rw [if_pos (by simpa using hfits)]
    constructor
    · intro h
      cases h
    · intro h
      omega

theorem sub?_eq_some_iff {a b c : UInt64} : sub? a b = some c ↔ a.toNat = b.toNat + c.toNat := by
  unfold sub? BitVec.usubOverflow
  rw [UInt64.toNat_toBitVec, UInt64.toNat_toBitVec]
  by_cases hlt : a.toNat < b.toNat
  · rw [if_pos (by simpa using hlt)]
    constructor
    · intro h
      cases h
    · intro h
      omega
  · have hle : b ≤ a := UInt64.le_iff_toNat_le.2 (Nat.not_lt.1 hlt)
    rw [if_neg (by simpa using hlt), Option.some.injEq, ← UInt64.toNat_inj,
      UInt64.toNat_sub_of_le _ _ hle]
    omega

namespace Weighted

variable (weight : β → UInt32)

/- The weights added up in 64 bits. -/
def sum? (items : List β) (sum : UInt64) : Option UInt64 :=
  items.foldlM (fun sum item => add? sum (weight item).toUInt64) sum

/- The item that a number of 64 bits falls to, if to any. -/
def scan? : List β → UInt64 → Option (Option β)
  | [], _ => some none
  | item :: rest, n =>
    if n < (weight item).toUInt64 then some (some item)
    else (sub? n (weight item).toUInt64).bind (scan? rest)

theorem sum?_eq_some_iff (items : List β) (sum result : UInt64) :
    sum? weight items sum = some result ↔
      sum.toNat + total (fun item => (weight item).toNat) items = result.toNat := by
  induction items generalizing sum with
  | nil =>
    rw [total_nil, Nat.add_zero, UInt64.toNat_inj]
    exact Option.some_inj
  | cons item rest ih =>
    simp only [sum?, List.foldlM_cons, Option.bind_eq_bind, Option.bind_eq_some_iff,
      add?_eq_some_iff, UInt32.toNat_toUInt64]
    rw [total_cons, ← Nat.add_assoc]
    constructor
    · rintro ⟨next, hnext, hrest⟩
      rw [hnext]
      exact (ih next).1 hrest
    · intro h
      have hfits : sum.toNat + (weight item).toNat < UInt64.size :=
        lt_of_le_of_lt ((Nat.le_add_right _ _).trans h.le) result.toNat_lt_size
      refine ⟨UInt64.ofNat (sum.toNat + (weight item).toNat), ?_, (ih _).2 ?_⟩
      · rw [UInt64.toNat_ofNat_of_lt' hfits]
      · rw [UInt64.toNat_ofNat_of_lt' hfits]
        exact h

/- A weight is only taken off a number that is no less. -/
theorem scan?_eq (items : List β) (n : UInt64) :
    scan? weight items n = some (choose (fun item => (weight item).toNat) items n.toNat) := by
  induction items generalizing n with
  | nil => rfl
  | cons item rest ih =>
    simp only [scan?, choose, UInt64.lt_iff_toNat_lt, UInt32.toNat_toUInt64]
    split
    · rfl
    · rename_i hge
      have hless : n.toNat - (weight item).toNat < UInt64.size :=
        lt_of_le_of_lt (Nat.sub_le _ _) n.toNat_lt_size
      have hsub : sub? n (weight item).toUInt64 =
          some (UInt64.ofNat (n.toNat - (weight item).toNat)) := by
        rw [sub?_eq_some_iff, UInt32.toNat_toUInt64, UInt64.toNat_ofNat_of_lt' hless]
        omega
      rw [hsub, Option.bind_some, ih, UInt64.toNat_ofNat_of_lt' hless]

end Weighted

/-! ### Places in order -/

theorem total_filter_finRange {n : Nat} (f : Fin n → Nat) (p : Fin n → Prop) [DecidablePred p] :
    total f ((List.finRange n).filter fun i => p i) = ∑ i with p i, f i := by
  rw [Finset.sum_filter, Fin.sum_univ_def]
  induction List.finRange n with
  | nil => rfl
  | cons i rest ih =>
    rw [List.map_cons, List.sum_cons, ← ih]
    by_cases hi : p i
    · rw [List.filter_cons_of_pos (by simpa using hi), total_cons, if_pos hi]
    · rw [List.filter_cons_of_neg (by simpa using hi), if_neg hi, Nat.zero_add]

/- A list in order is split at each of its items into those before it and those behind it. -/
theorem split_at {n : Nat} {is : List (Fin n)} (hsorted : is.Pairwise (· < ·)) {i : Fin n}
    (hi : i ∈ is) :
    ∃ after, is = (is.filter fun j => j < i) ++ i :: after ∧ i ∉ after := by
  obtain ⟨before, after, rfl⟩ := List.append_of_mem hi
  obtain ⟨-, hafter, hbefore⟩ := List.pairwise_append.1 hsorted
  have hbehind := (List.pairwise_cons.1 hafter).1
  have hall : before.filter (fun j => j < i) = before :=
    List.filter_eq_self.2 fun j hj => by simpa using hbefore j hj i List.mem_cons_self
  have hnone : (i :: after).filter (fun j => j < i) = [] := by
    rw [List.filter_eq_nil_iff]
    intro j hj
    rcases List.mem_cons.1 hj with rfl | hj
    · simp
    · simpa using (hbehind j hj).le
  refine ⟨after, ?_, fun hmem => lt_irrefl i (hbehind i hmem)⟩
  rw [List.filter_append, hall, hnone, List.append_nil]

namespace Grammar

variable {g : Grammar α}

/-! ### The share of a variant -/

/- The weights of the variants of a name together. -/
def weightOf (g : Grammar α) (name : String) : Nat :=
  ∑ i with (g.variant i).name = name, g.weight i

/- The weights of the variants of the same name that are declared before. -/
def weightBefore (g : Grammar α) (i : g.Ref) : Nat :=
  ∑ j with (g.variant j).name = (g.variant i).name ∧ j < i, g.weight j

/- The numbers that pick the variant. -/
def share (g : Grammar α) (i : g.Ref) : Finset Nat :=
  Finset.Ico (g.weightBefore i) (g.weightBefore i + g.weight i)

theorem card_share (i : g.Ref) : (g.share i).card = g.weight i := by
  rw [share, Nat.card_Ico, Nat.add_sub_cancel_left]

theorem total_named (h : g.Listed) (name : String) :
    total g.weight (g.named name) = g.weightOf name := by
  rw [h.named_eq, total_filter_finRange, weightOf]

theorem choose_named_iff (h : g.Listed) (name : String) (i : g.Ref) (n : Nat) :
    Weighted.choose g.weight (g.named name) n = some i ↔
      (g.variant i).name = name ∧ n ∈ g.share i := by
  have hmem : i ∈ g.named name ↔ (g.variant i).name = name := by
    rw [h.named_eq, List.mem_filter]
    simp
  by_cases hname : (g.variant i).name = name
  · subst hname
    have hsorted : (g.named (g.variant i).name).Pairwise (· < ·) := by
      rw [h.named_eq]
      exact (List.pairwise_lt_finRange _).filter _
    obtain ⟨after, hsplit, hafter⟩ := split_at hsorted (hmem.2 rfl)
    have hbefore : total g.weight ((g.named (g.variant i).name).filter fun j => j < i) =
        g.weightBefore i := by
      rw [h.named_eq, List.filter_filter, weightBefore, ← total_filter_finRange]
      refine congrArg _ (List.filter_congr fun j _ => ?_)
      simp [and_comm]
    rw [hsplit, Weighted.choose_split_iff (by simp) hafter, hbefore, share, Finset.mem_Ico]
    simp
  · simp only [hname, false_and, iff_false]
    intro hchoose
    exact hname (hmem.1 (Weighted.mem_of_choose hchoose))

theorem share_subset_range (h : g.Listed) (i : g.Ref) :
    g.share i ⊆ Finset.range (g.weightOf (g.variant i).name) := by
  intro n hn
  have hchoose := (choose_named_iff h _ i n).2 ⟨rfl, hn⟩
  rw [Finset.mem_range, ← total_named h]
  exact Weighted.lt_total_of_choose hchoose

/-! ### Picking -/

section Picking
variable [RandomSource σ]

theorem pickFrom_of_choose {name : String} {source : σ} {i : g.Ref}
    (hname : g.index.contains name) (htotal : 0 < total g.weight (g.named name))
    (hi : Weighted.choose g.weight (g.named name)
      (RandomSource.below (total g.weight (g.named name)) source).1 = some i) :
    g.pickFrom name source =
      (.ok i, (RandomSource.below (total g.weight (g.named name)) source).2) := by
  simp only [pickFrom, hname, htotal.ne', hi, if_true, if_false]

/- Where the name has a weight, one number is drawn, and the variant is the one whose share it lies
in. -/
theorem exists_pickFrom (hlisted : g.Listed) (hindexed : g.Indexed) (hrange : InRange σ)
    {name : String} (hweight : 0 < g.weightOf name) (source : σ) :
    ∃ i, g.pickFrom name source = (.ok i, (RandomSource.below (g.weightOf name) source).2) ∧
      (g.variant i).name = name ∧ (RandomSource.below (g.weightOf name) source).1 ∈ g.share i := by
  rw [← total_named hlisted] at hweight ⊢
  obtain ⟨i, hi⟩ := Weighted.exists_choose (hrange _ source hweight)
  obtain ⟨hname, hshare⟩ := (choose_named_iff hlisted name i _).1 hi
  have hknown := (hindexed.contains_iff name).2 ⟨i, hname⟩
  exact ⟨i, pickFrom_of_choose hknown hweight hi, hname, hshare⟩

theorem pickFrom_eq_ok_iff (hlisted : g.Listed) (hindexed : g.Indexed) (hrange : InRange σ)
    {name : String} (hweight : 0 < g.weightOf name) (source : σ) (i : g.Ref) :
    (g.pickFrom name source).1 = .ok i ↔
      (g.variant i).name = name ∧ (RandomSource.below (g.weightOf name) source).1 ∈ g.share i := by
  obtain ⟨j, hj, hname, hshare⟩ := exists_pickFrom hlisted hindexed hrange hweight source
  have hchoose := (choose_named_iff hlisted name j _).2 ⟨hname, hshare⟩
  rw [hj, Except.ok.injEq, ← choose_named_iff hlisted, hchoose, Option.some.injEq]

/- Each variant is picked by as many numbers as its weight, next to each other. -/
theorem numbers_picking (hlisted : g.Listed) (hindexed : g.Indexed) (hrange : InRange σ)
    {drawing : Nat → σ} (i : g.Ref)
    (hdrawing : ∀ n < g.weightOf (g.variant i).name,
      (RandomSource.below (g.weightOf (g.variant i).name) (drawing n)).1 = n) :
    ((Finset.range (g.weightOf (g.variant i).name)).filter fun n =>
      (g.pickFrom (g.variant i).name (drawing n)).1 = .ok i) = g.share i := by
  ext n
  rw [Finset.mem_filter, Finset.mem_range]
  constructor
  · rintro ⟨hn, hpick⟩
    have hshare := (pickFrom_eq_ok_iff hlisted hindexed hrange (by omega) _ i).1 hpick
    rw [hdrawing n hn] at hshare
    exact hshare.2
  · intro hshare
    have hn := Finset.mem_range.1 (share_subset_range hlisted i hshare)
    refine ⟨hn, (pickFrom_eq_ok_iff hlisted hindexed hrange (by omega) _ i).2 ⟨rfl, ?_⟩⟩
    rw [hdrawing n hn]
    exact hshare

/-! ### Picking with 64 bits -/

/- Chooses a variant with the arithmetic of 64 bits, as long as that has an answer. -/
def pick64? (g : Grammar α) (name : String) (source : σ) :
    Option (Except PickError g.Ref × σ) :=
  if g.index.contains name then
    (Weighted.sum? (fun i => (g.variant i).weight) (g.named name) 0).bind fun total =>
      if total = 0 then some (.error (.noSelectableVariant name), source)
      else
        let (n, source) := RandomSource.below total.toNat source
        (Weighted.scan? (fun i => (g.variant i).weight) (g.named name) (UInt64.ofNat n)).map fun
          | some i => (.ok i, source)
          | none => (.error (.noSelectableVariant name), source)
  else some (.error (.noSuchRule name (closest? name g.ruleNames)), source)

theorem total_named_lt (h : g.Listed) (hfew : g.variants.size < UInt32.size) (name : String) :
    total g.weight (g.named name) < UInt64.size := by
  have hlength : (g.named name).length ≤ g.variants.size := by
    rw [h.named_eq]
    exact (List.length_filter_le _ _).trans_eq List.length_finRange
  have htotal : total g.weight (g.named name) ≤ (g.named name).length * (UInt32.size - 1) :=
    total_le_length_mul _ fun i _ => Nat.le_sub_one_of_lt (g.variant i).weight.toNat_lt_size
  have hmul : (g.named name).length * (UInt32.size - 1) ≤
      (UInt32.size - 1) * (UInt32.size - 1) :=
    Nat.mul_le_mul_right _ (by omega)
  have hsquare : (UInt32.size - 1) * (UInt32.size - 1) < UInt64.size := by decide
  omega

theorem pick64?_eq (h : g.Listed) (hfew : g.variants.size < UInt32.size) (hrange : InRange σ)
    (name : String) (source : σ) : g.pick64? name source = some (g.pickFrom name source) := by
  have hlt := total_named_lt h hfew name
  have hsum : Weighted.sum? (fun i => (g.variant i).weight) (g.named name) 0 =
      some (UInt64.ofNat (total g.weight (g.named name))) := by
    rw [Weighted.sum?_eq_some_iff, UInt64.toNat_ofNat_of_lt' hlt]
    exact Nat.zero_add _
  unfold pick64?
  rw [hsum]
  by_cases hname : g.index.contains name
  · by_cases hzero : total g.weight (g.named name) = 0
    · simp only [pickFrom, hname, hzero, if_true, Option.bind_some]
      rfl
    · have hweight := Nat.pos_of_ne_zero hzero
      have hdrawn := hrange _ source hweight
      obtain ⟨i, hi⟩ := Weighted.exists_choose hdrawn
      have hne : UInt64.ofNat (total g.weight (g.named name)) ≠ 0 := by
        intro hword
        have hnat := congrArg UInt64.toNat hword
        rw [UInt64.toNat_ofNat_of_lt' hlt] at hnat
        exact hzero hnat
      have hscan : Weighted.scan? (fun i => (g.variant i).weight) (g.named name)
          (UInt64.ofNat (RandomSource.below (total g.weight (g.named name)) source).1) =
          some (some i) := by
        rw [Weighted.scan?_eq, UInt64.toNat_ofNat_of_lt' (hdrawn.trans hlt)]
        exact congrArg some hi
      rw [pickFrom_of_choose hname hweight hi]
      simp only [hname, hne, if_true, if_false, Option.bind_some, UInt64.toNat_ofNat_of_lt' hlt,
        hscan, Option.map_some]
  · simp only [pickFrom, hname, Bool.false_eq_true, if_false]

/-! ### Picking by weight -/

/- Picking from the grammar goes by weight, whatever name is asked for and wherever the source
stands. -/
structure PicksByWeight (σ : Type) [RandomSource σ] (g : Grammar α) : Prop where
  fits : ∀ name (source : σ), g.pick64? name source = some (g.pickFrom name source)
  one_draw : ∀ name, 0 < g.weightOf name → ∀ source : σ, ∃ i,
    g.pickFrom name source = (.ok i, (RandomSource.below (g.weightOf name) source).2) ∧
      (g.variant i).name = name ∧ 0 < g.weight i ∧
      (RandomSource.below (g.weightOf name) source).1 ∈ g.share i
  numbers : ∀ (i : g.Ref) (drawing : Nat → σ),
    (∀ n < g.weightOf (g.variant i).name,
      (RandomSource.below (g.weightOf (g.variant i).name) (drawing n)).1 = n) →
    ((Finset.range (g.weightOf (g.variant i).name)).filter fun n =>
      (g.pickFrom (g.variant i).name (drawing n)).1 = .ok i) = g.share i ∧
      (g.share i).card = g.weight i
  no_weight : ∀ name, g.weightOf name = 0 → (∃ i, (g.variant i).name = name) → ∀ source : σ,
    g.pickFrom name source = (.error (.noSelectableVariant name), source)
  no_name : ∀ name, (∀ i, (g.variant i).name ≠ name) → ∀ source : σ,
    g.pickFrom name source = (.error (.noSuchRule name (closest? name g.ruleNames)), source)

/- A name that has a weight costs one draw, which picks each variant for exactly its share of the
numbers; any other name is an error and costs none. -/
theorem pick_shares {maxDepth : Nat} (hpos : 0 < maxDepth) (vs : List (Variant α))
    (hfew : vs.length < UInt32.size) (hrange : InRange σ) :
    PicksByWeight σ (declare maxDepth hpos vs) := by
  have hlisted := listed_declare maxDepth hpos vs
  obtain ⟨hindexed, hvariants, -⟩ := indexed_declare maxDepth hpos vs
  rw [← hvariants, Array.length_toList] at hfew
  refine ⟨pick64?_eq hlisted hfew hrange, ?_, ?_, ?_, ?_⟩
  · intro name hweight source
    obtain ⟨i, hpick, hname, hshare⟩ := exists_pickFrom hlisted hindexed hrange hweight source
    have hbounds := Finset.mem_Ico.1 hshare
    exact ⟨i, hpick, hname, by omega, hshare⟩
  · intro i drawing hdrawing
    exact ⟨numbers_picking hlisted hindexed hrange i hdrawing, card_share i⟩
  · intro name hzero hname source
    rw [← total_named hlisted] at hzero
    simp only [pickFrom, (hindexed.contains_iff name).2 hname, hzero, if_true]
  · intro name hname source
    have hunknown : ¬(declare maxDepth hpos vs).index.contains name := by
      rw [hindexed.contains_iff]
      rintro ⟨i, hi⟩
      exact hname i hi
    simp only [pickFrom, hunknown, Bool.false_eq_true, if_false]

end Picking

/- Two sides to pick between variants that cannot be picked, and an edge that cannot either. -/
def sides : List (Variant Float) :=
  [{ name := "side", weight := 0 }, { name := "side", weight := 3 }, { name := "edge", weight := 0 },
    { name := "side", weight := 0 }, { name := "side", weight := 2 }, { name := "side", weight := 0 }]

def coin : Grammar Float := declare 1 Nat.one_pos sides

/- Generators whose first number below five is 0, 1, 2, 3 and 4. -/
def toss (n : Nat) : ChaCha.Generator := .ofSeed ([3, 2, 4, 0, 1].getD n 0)

theorem toss_first : ∀ n < 5, (RandomSource.below 5 (toss n)).1 = n := by decide +kernel

theorem coin_shares :
    coin.pick64? "side" (toss 4) = some (coin.pickFrom "side" (toss 4)) ∧
    (∃ i, coin.pickFrom "side" (toss 4) = (.ok i, (RandomSource.below 5 (toss 4)).2) ∧
      4 ∈ coin.share i) ∧
    ((Finset.range 5).filter fun n => (coin.pickFrom "side" (toss n)).1 = .ok ⟨4, by decide⟩) =
      {3, 4} ∧
    coin.pickFrom "edge" (toss 4) = (.error (.noSelectableVariant "edge"), toss 4) ∧
    (coin.pickFrom "face" (toss 4)).2 = toss 4 := by
  have hcoin : PicksByWeight ChaCha.Generator coin :=
    pick_shares Nat.one_pos sides (by decide) ChaCha.Generator.inRange_generator
  have hweight : coin.weightOf "side" = 5 := by decide
  obtain ⟨i, hpick, -, -, hshare⟩ := hcoin.one_draw "side" (by decide) (toss 4)
  rw [hweight] at hpick hshare
  rw [toss_first 4 (by decide)] at hshare
  have hnumbers := (hcoin.numbers ⟨4, by decide⟩ toss toss_first).1
  have hfour : coin.share ⟨4, by decide⟩ = {3, 4} := by decide
  refine ⟨hcoin.fits _ _, ⟨i, hpick, hshare⟩, hnumbers.trans hfour,
    hcoin.no_weight "edge" (by decide) (by decide) _, ?_⟩
  rw [hcoin.no_name "face" (by decide)]

end Grammar

end ProceduralShapes
