import Mathlib.Data.List.Sort
import Mathlib.Data.String.Basic
import ProceduralShapes.Grammar.Basic

/-!
# Declared variants

A grammar is declared variant by variant. However the declarations are mixed, the variants of a name
are those declared under it, in their order (`indexed_declare`), and so are their places
(`Listed.named_eq`).
-/

namespace ProceduralShapes.Grammar

variable {α : Type}

/-! ### Names -/

theorem mem_ruleNames {g : Grammar α} {name : String} :
    name ∈ g.ruleNames ↔ g.index.contains name = true := by
  rw [ruleNames, Std.TreeMap.mem_keys, Std.TreeMap.contains_iff_mem]

/- Every name is listed once, and the names ascend. -/
theorem pairwise_ruleNames (g : Grammar α) : g.ruleNames.Pairwise (· < ·) :=
  Std.TreeMap.ordered_keys.imp compare_lt_iff_lt.1

/- The names of a grammar are listed in one order only. -/
theorem ruleNames_eq {g h : Grammar α} (hnames : ∀ name, name ∈ g.ruleNames ↔ name ∈ h.ruleNames) :
    g.ruleNames = h.ruleNames :=
  g.pairwise_ruleNames.eq_of_mem_iff h.pairwise_ruleNames hnames

/-! ### The index -/

theorem map_variant_named (g : Grammar α) (name : String) :
    (g.named name).map g.variant =
      (g.index.getD name #[]).toList.filterMap fun i => g.variants[i]? := by
  rw [named, List.map_filterMap]
  refine List.filterMap_congr fun i _ => ?_
  by_cases hi : i < g.variants.size
  · simp [hi, variant]
  · simp [hi]

/- The index says of every name where its variants are. -/
structure Indexed (g : Grammar α) : Prop where
  lt_size : ∀ name, ∀ i ∈ g.index.getD name #[], i < g.variants.size
  named_eq : ∀ name, (g.named name).map g.variant =
    g.variants.toList.filter fun v => v.name = name
  mem_iff : ∀ name, name ∈ g.ruleNames ↔ ∃ v ∈ g.variants.toList, v.name = name

theorem getD_index_add (g : Grammar α) (v : Variant α) (name : String) :
    (g.add v).index.getD name #[] =
      if v.name = name then (g.index.getD name #[]).push g.variants.size
      else g.index.getD name #[] := by
  simp only [add, Std.TreeMap.getD_alter, Std.compare_eq_iff_eq]
  split
  · rename_i hname
    subst hname
    simp [Std.TreeMap.getD_eq_getD_getElem?]
  · rfl

theorem mem_ruleNames_add (g : Grammar α) (v : Variant α) (name : String) :
    name ∈ (g.add v).ruleNames ↔ v.name = name ∨ name ∈ g.ruleNames := by
  simp only [mem_ruleNames, add, Std.TreeMap.contains_alter, Std.compare_eq_iff_eq]
  split
  · simp_all
  · simp_all

theorem Indexed.add {g : Grammar α} (h : g.Indexed) (v : Variant α) : (g.add v).Indexed := by
  have hsize : (g.add v).variants.size = g.variants.size + 1 := Array.size_push v
  have hvariants : (g.add v).variants = g.variants.push v := rfl
  refine ⟨?_, ?_, ?_⟩
  · intro name i hi
    have hlt := h.lt_size name i
    rw [getD_index_add] at hi
    rw [hsize]
    split at hi
    · rcases Array.mem_push.1 hi with hi | rfl
      · exact Nat.lt_succ_of_lt (hlt hi)
      · exact Nat.lt_succ_self _
    · exact Nat.lt_succ_of_lt (hlt hi)
  · intro name
    have hold : (g.index.getD name #[]).toList.filterMap (fun i => (g.variants.push v)[i]?) =
        g.variants.toList.filter fun v => v.name = name := by
      rw [← h.named_eq, map_variant_named]
      refine List.filterMap_congr fun i hi => ?_
      have hlt := h.lt_size name i (Array.mem_toList_iff.1 hi)
      rw [Array.getElem?_push, if_neg (Nat.ne_of_lt hlt)]
    rw [map_variant_named, getD_index_add, hvariants, Array.toList_push, List.filter_append]
    split
    · rename_i hname
      rw [Array.toList_push, List.filterMap_append, hold]
      simp [hname]
    · rename_i hname
      rw [hold]
      simp [hname]
  · intro name
    rw [mem_ruleNames_add, h.mem_iff, hvariants, Array.toList_push]
    simp only [List.mem_append, List.mem_singleton]
    constructor
    · intro hor
      rcases hor with hname | ⟨w, hw, hname⟩
      · exact ⟨v, .inr rfl, hname⟩
      · exact ⟨w, .inl hw, hname⟩
    · intro ⟨w, hw, hname⟩
      rcases hw with hw | rfl
      · exact .inr ⟨w, hw, hname⟩
      · exact .inl hname

theorem Indexed.contains_iff {g : Grammar α} (h : g.Indexed) (name : String) :
    g.index.contains name ↔ ∃ i, (g.variant i).name = name := by
  rw [← mem_ruleNames, h.mem_iff]
  constructor
  · rintro ⟨v, hv, hname⟩
    obtain ⟨k, hk, rfl⟩ := List.getElem_of_mem hv
    exact ⟨⟨k, by simpa using hk⟩, hname⟩
  · rintro ⟨i, hname⟩
    exact ⟨g.variant i, Array.getElem_mem_toList i.isLt, hname⟩

/- The index lists the places of every name in order. -/
def Listed (g : Grammar α) : Prop :=
  ∀ name, (g.index.getD name #[]).toList =
    (List.range g.variants.size).filter fun i => g.variants[i]?.map Variant.name = some name

theorem Listed.add {g : Grammar α} (h : g.Listed) (v : Variant α) : (g.add v).Listed := by
  intro name
  have hsize : (g.add v).variants.size = g.variants.size + 1 := Array.size_push v
  have hvariants : (g.add v).variants = g.variants.push v := rfl
  have hold : (List.range g.variants.size).filter
      (fun i => (g.variants.push v)[i]?.map Variant.name = some name) =
      (g.index.getD name #[]).toList := by
    rw [h name]
    refine List.filter_congr fun i hi => ?_
    rw [Array.getElem?_push, if_neg (Nat.ne_of_lt (List.mem_range.1 hi))]
  rw [getD_index_add, hsize, hvariants, List.range_succ, List.filter_append, hold]
  split
  · rename_i hname
    simp [hname]
  · rename_i hname
    simp [hname]

theorem Listed.lt_size {g : Grammar α} (h : g.Listed) {name : String} {i : Nat}
    (hi : i ∈ (g.index.getD name #[]).toList) : i < g.variants.size := by
  rw [h name, List.mem_filter, List.mem_range] at hi
  exact hi.1

/- No place of the index is passed over. -/
theorem Listed.map_val_named {g : Grammar α} (h : g.Listed) (name : String) :
    (g.named name).map Fin.val = (g.index.getD name #[]).toList := by
  rw [named, List.map_filterMap]
  refine (List.filterMap_congr fun i hi => ?_).trans List.filterMap_some
  simp [h.lt_size hi]

/- The variants of a name stand in the order that they were declared in. -/
theorem Listed.named_eq {g : Grammar α} (h : g.Listed) (name : String) :
    g.named name = (List.finRange g.variants.size).filter fun i => (g.variant i).name = name := by
  refine (List.map_injective_iff.2 Fin.val_injective) ?_
  have hfilter : (fun i : g.Ref => decide ((g.variant i).name = name)) =
      (fun i => decide (g.variants[i]?.map Variant.name = some name)) ∘ Fin.val := by
    funext i
    exact decide_eq_decide.2 (by simp [variant])
  rw [h.map_val_named, hfilter, ← List.filter_map, List.map_coe_finRange_eq_range, ← h name]

/-! ### Declaring variants -/

/- The grammar with these variants, declared one after the other. -/
def declare (maxDepth : Nat) (h : 0 < maxDepth) (vs : List (Variant α)) : Grammar α :=
  vs.foldl add { maxDepth, maxDepth_pos := h }

theorem indexed_foldl {g : Grammar α} (h : g.Indexed) (vs : List (Variant α)) :
    (vs.foldl add g).Indexed ∧ (vs.foldl add g).variants.toList = g.variants.toList ++ vs ∧
      (vs.foldl add g).maxDepth = g.maxDepth := by
  induction vs generalizing g with
  | nil => exact ⟨h, by simp, rfl⟩
  | cons v rest ih =>
    obtain ⟨hindexed, hvariants, hdepth⟩ := ih (h.add v)
    have hadd : (g.add v).variants.toList = g.variants.toList ++ [v] := Array.toList_push
    refine ⟨hindexed, ?_, hdepth⟩
    rw [List.foldl_cons, hvariants, hadd, List.append_assoc]
    rfl

theorem indexed_declare (maxDepth : Nat) (h : 0 < maxDepth) (vs : List (Variant α)) :
    (declare maxDepth h vs).Indexed ∧ (declare maxDepth h vs).variants.toList = vs ∧
      (declare maxDepth h vs).maxDepth = maxDepth := by
  have hempty : ({ maxDepth, maxDepth_pos := h } : Grammar α).Indexed := by
    refine ⟨?_, ?_, ?_⟩
    · intro name i hi
      simp at hi
    · intro name
      simp [map_variant_named]
    · intro name
      simp [mem_ruleNames]
  exact indexed_foldl hempty vs

theorem listed_declare (maxDepth : Nat) (h : 0 < maxDepth) (vs : List (Variant α)) :
    (declare maxDepth h vs).Listed := by
  have hempty : ({ maxDepth, maxDepth_pos := h } : Grammar α).Listed := by
    intro name
    simp
  exact List.foldlRecOn vs Grammar.add hempty fun g hg v _ => Listed.add hg v

end ProceduralShapes.Grammar
