import ProceduralShapes.Proofs.Grammar.Declaration
import ProceduralShapes.Proofs.Text.ByteOrder
import ProceduralShapes.Random.ChaCha

/-!
# The index of a grammar

The index is kept apart from the variants. However a grammar is declared, it lists the places of
every name in order and no others (`index_tells_places`), so picking by the places that it gives
never looks for a variant that is not there (`pickAt?_eq`).
-/

namespace ProceduralShapes.Grammar

variable {α σ : Type} {g : Grammar α}

/-! ### Looking up -/

/- The variants at these places, as long as all of them are there. -/
def lookUp? (g : Grammar α) (places : List Nat) : Option (List (Variant α)) :=
  places.mapM fun i => g.variants[i]?

/- The variant that a number falls to, each looked up when it comes to its turn. -/
def scanAt? (g : Grammar α) : List Nat → Nat → Option (Option (Variant α))
  | [], _ => some none
  | i :: rest, n =>
    g.variants[i]?.bind fun v =>
      if n < v.weight.toNat then some (some v) else g.scanAt? rest (n - v.weight.toNat)

/- Chooses a variant by the places that the index gives, as long as it finds one at each. -/
def pickAt? [RandomSource σ] (g : Grammar α) (name : String) (source : σ) :
    Option (Except PickError (Variant α) × σ) :=
  match g.index[name]? with
  | none => some (.error (.noSuchRule name (closest? name g.ruleNames)), source)
  | some places =>
    (g.lookUp? places.toList).bind fun vs =>
      let sum := total (fun v => v.weight.toNat) vs
      if sum = 0 then some (.error (.noSelectableVariant name), source)
      else
        let (n, source) := RandomSource.below sum source
        (g.scanAt? places.toList n).map fun
          | some v => (.ok v, source)
          | none => (.error (.noSelectableVariant name), source)

theorem getElem?_val (i : g.Ref) : g.variants[i.val]? = some (g.variant i) :=
  Array.getElem?_eq_getElem i.isLt

theorem lookUp?_val (is : List g.Ref) : g.lookUp? (is.map Fin.val) = some (is.map g.variant) := by
  rw [lookUp?, List.mapM_map]
  simp only [Function.comp_def, getElem?_val]
  exact List.mapM_pure

theorem scanAt?_val (is : List g.Ref) (n : Nat) :
    g.scanAt? (is.map Fin.val) n = some ((Weighted.choose g.weight is n).map g.variant) := by
  induction is generalizing n with
  | nil => rfl
  | cons i rest ih =>
    have hweight : (g.variant i).weight.toNat = g.weight i := rfl
    rw [List.map_cons, scanAt?, getElem?_val, Option.bind_some, Weighted.choose, ih, hweight]
    split
    · rfl
    · rfl

theorem pickAt?_eq [RandomSource σ] (h : g.Listed) (name : String) (source : σ) :
    g.pickAt? name source = some ((g.pickFrom name source).map (Except.map g.variant) id) := by
  have hcontains : g.index.contains name = g.index[name]?.isSome :=
    Std.TreeMap.contains_eq_isSome_getElem?
  unfold pickAt? pickFrom
  cases hplaces : g.index[name]? with
  | none =>
    simp only [hcontains, hplaces, Option.isSome_none, Bool.false_eq_true, if_false]
    rfl
  | some places =>
    have hvals : places.toList = (g.named name).map Fin.val := by
      rw [h.map_val_named, Std.TreeMap.getD_eq_getD_getElem?, hplaces, Option.getD_some]
    have htotal : total (fun v => v.weight.toNat) ((g.named name).map g.variant) =
        total g.weight (g.named name) := total_map _ _ _
    simp only [hcontains, hplaces, hvals, lookUp?_val, Option.bind_some, htotal, scanAt?_val,
      Option.isSome_some, if_true]
    split
    · rfl
    · cases Weighted.choose g.weight (g.named name)
        (RandomSource.below (total g.weight (g.named name)) source).1 with
      | none => rfl
      | some i => rfl

/-! ### What the index tells -/

/- The index tells of every name where its variants are, and nothing else. -/
structure TellsPlaces (g : Grammar α) : Prop where
  known_iff : ∀ name, (∃ places, g.index[name]? = some places) ↔
    ∃ v ∈ g.variants.toList, v.name = name
  places : ∀ name (places : Array Nat), g.index[name]? = some places →
    places.toList.Pairwise (· < ·) ∧
      ∀ i, i ∈ places.toList ↔ ∃ h : i < g.variants.size, g.variants[i].name = name
  named : ∀ name, (g.named name).map g.variant = g.variants.toList.filter fun v => v.name = name
  found : ∀ name, g.lookUp? (g.index.getD name #[]).toList = some ((g.named name).map g.variant)
  pick_found : ∀ (σ : Type) [RandomSource σ] name (source : σ),
    g.pickAt? name source = some ((g.pickFrom name source).map (Except.map g.variant) id)
  ruleNames_ascend : (g.ruleNames.map Text.bytes).Pairwise (· < ·)
  ruleNames_iff : ∀ name, name ∈ g.ruleNames ↔ ∃ v ∈ g.variants.toList, v.name = name

theorem tellsPlaces_of_listed (hlisted : g.Listed) (hindexed : g.Indexed) : g.TellsPlaces := by
  refine ⟨?_, ?_, hindexed.named_eq, ?_, fun σ _ => pickAt?_eq hlisted, ?_, hindexed.mem_iff⟩
  · intro name
    rw [← Option.isSome_iff_exists, ← Std.TreeMap.contains_eq_isSome_getElem?, ← mem_ruleNames]
    exact hindexed.mem_iff name
  · intro name places hplaces
    have hlist := hlisted name
    rw [Std.TreeMap.getD_eq_getD_getElem?, hplaces, Option.getD_some] at hlist
    rw [hlist]
    refine ⟨List.pairwise_lt_range.filter _, fun i => ?_⟩
    simp [List.mem_filter, Array.getElem?_eq_some_iff]
  · intro name
    rw [← hlisted.map_val_named, lookUp?_val]
  · exact List.pairwise_map.2 (g.pairwise_ruleNames.imp Text.bytes_lt_of_lt)

/- However a grammar is declared, its index tells the places of all names. -/
theorem index_tells_places {maxDepth : Nat} (hpos : 0 < maxDepth) (vs : List (Variant α)) :
    (declare maxDepth hpos vs).variants.toList = vs ∧ (declare maxDepth hpos vs).TellsPlaces := by
  obtain ⟨hindexed, hvariants, -⟩ := indexed_declare maxDepth hpos vs
  exact ⟨hvariants, tellsPlaces_of_listed (listed_declare maxDepth hpos vs) hindexed⟩

/- Two arms, with other rules declared before, between and behind them. -/
def armRules : List (Variant Float) :=
  [{ name := "tip" }, { name := "arm", weight := 3 }, { name := "entry" }, { name := "arm" },
    { name := "tip", weight := 0 }]

theorem arms_found :
    0 < 5 ∧ (declare 5 (by decide) armRules).index["arm"]? = some #[1, 3] ∧
    (declare 5 (by decide) armRules).lookUp? [1, 3] =
      some [{ name := "arm", weight := 3 }, { name := "arm" }] ∧
    (declare 5 (by decide) armRules).pickAt? "arm" (ChaCha.Generator.ofSeed 7) =
      some (((declare 5 (by decide) armRules).pickFrom "arm" (ChaCha.Generator.ofSeed 7)).map
        (Except.map (declare 5 (by decide) armRules).variant) id) ∧
    ∀ name, name ∈ (declare 5 (by decide) armRules).ruleNames ↔
      ∃ v ∈ armRules, v.name = name := by
  obtain ⟨hvariants, htells⟩ := index_tells_places (by decide : 0 < 5) armRules
  have harms : (declare 5 (by decide) armRules).index["arm"]? = some #[1, 3] := by decide +kernel
  have hfound := htells.found "arm"
  rw [htells.named, hvariants, Std.TreeMap.getD_eq_getD_getElem?, harms] at hfound
  have hnames := htells.ruleNames_iff
  rw [hvariants] at hnames
  exact ⟨by decide, harms, hfound, htells.pick_found _ _ _, hnames⟩

end ProceduralShapes.Grammar
