import Mathlib.Data.List.MinMax
import ProceduralShapes.Proofs.Grammar.Declaration
import ProceduralShapes.Proofs.Text.ByteOrder
import ProceduralShapes.Proofs.Text.Edit
import ProceduralShapes.Random.ChaCha

/-!
# Suggested names

Where a name has no variants, the name of a rule is suggested in its place. It is the closest one,
and of the closest ones the first, unless every rule is more than three edits away
(`nearest_name_suggested`).
-/

namespace ProceduralShapes.Grammar

variable {α σ : Type}

/-! ### The first of the least -/

/- The names that are close enough. -/
def nearby (name : String) (names : List String) : List String :=
  names.filter fun c => Text.distance name c ≤ suggestionDistance

theorem mem_nearby {name c : String} {names : List String} :
    c ∈ nearby name names ↔ c ∈ names ∧ Text.distance name c ≤ suggestionDistance := by
  rw [nearby, List.mem_filter, decide_eq_true_iff]

def measured (name c : String) : Nat × String := (Text.distance name c, c)

/- The one behind only where it is closer. -/
def closer (best : Option (Nat × String)) (c : Nat × String) : Option (Nat × String) :=
  match best with
  | none => some c
  | some b => if c.1 < b.1 then some c else some b

theorem closest?_eq_foldl (name : String) (names : List String) :
    closest? name names =
      (((nearby name names).map (measured name)).foldl closer none).map Prod.snd := by
  have hmeasured : (nearby name names).map (measured name) = names.filterMap fun c =>
      if Text.distance name c ≤ suggestionDistance then some (measured name c) else none := by
    rw [nearby, ← List.filterMap_eq_filter, List.map_filterMap]
    refine List.filterMap_congr fun c _ => ?_
    by_cases h : Text.distance name c ≤ suggestionDistance
    · simp [h]
    · simp [h]
  rw [hmeasured]
  rfl

theorem closer_measured (name : String) (best : Option String) (c : String) :
    closer (best.map (measured name)) (measured name c) =
      (List.argAux (fun b c => Text.distance name b < Text.distance name c) best c).map
        (measured name) := by
  cases best with
  | none => rfl
  | some b =>
    by_cases h : Text.distance name c < Text.distance name b
    · simp [closer, List.argAux, measured, h]
    · simp [closer, List.argAux, measured, h]

theorem closest?_eq_argmin (name : String) (names : List String) :
    closest? name names = (nearby name names).argmin (Text.distance name) := by
  have hfold : (nearby name names).foldl (fun best c => closer best (measured name c))
      ((none : Option String).map (measured name)) =
      ((nearby name names).argmin (Text.distance name)).map (measured name) :=
    List.foldl_hom (Option.map (measured name)) (closer_measured name)
  rw [closest?_eq_foldl, List.foldl_map, ← Option.map_none, hfold, Option.map_map]
  exact Option.map_id'

theorem idxOf_le_idxOf_iff {names : List String} (hsorted : names.Pairwise (· < ·)) {a b : String}
    (ha : a ∈ names) (hb : b ∈ names) : names.idxOf a ≤ names.idxOf b ↔ a ≤ b := by
  have hle := hsorted.sortedLT.strictMono_get.le_iff_le
    (a := ⟨names.idxOf a, List.idxOf_lt_length_iff.2 ha⟩)
    (b := ⟨names.idxOf b, List.idxOf_lt_length_iff.2 hb⟩)
  rw [List.get_eq_getElem, List.get_eq_getElem, List.getElem_idxOf, List.getElem_idxOf] at hle
  exact hle.symm

/- What is suggested in place of a name: a name that is close to it, none of the others closer and
none before it as close. -/
structure Nearest (names : List String) (name c : String) : Prop where
  mem : c ∈ names
  close : Text.editDistance name c ≤ 3
  least : ∀ r ∈ names, Text.editDistance name c ≤ Text.editDistance name r
  first : ∀ r ∈ names, Text.bytes r < Text.bytes c →
    Text.editDistance name c < Text.editDistance name r

theorem distance_lt_of_not_nearby {name c r : String} {names : List String}
    (hc : c ∈ nearby name names) (hr : r ∈ names) (hfar : r ∉ nearby name names) :
    Text.distance name c < Text.distance name r := by
  obtain ⟨-, hclose⟩ := mem_nearby.1 hc
  have hdistant : ¬Text.distance name r ≤ suggestionDistance :=
    fun h => hfar (mem_nearby.2 ⟨hr, h⟩)
  exact hclose.trans_lt (not_le.1 hdistant)

/- Names that are far away need not be looked at. -/
theorem nearest_iff_nearby {name c : String} {names : List String} :
    Nearest names name c ↔ c ∈ nearby name names ∧
      (∀ r ∈ nearby name names, Text.distance name c ≤ Text.distance name r) ∧
      ∀ r ∈ nearby name names, Text.bytes r < Text.bytes c →
        Text.distance name c < Text.distance name r := by
  constructor
  · rintro ⟨hmem, hclose, hleast, hfirst⟩
    simp only [Text.editDistance_eq] at hclose hleast hfirst
    exact ⟨mem_nearby.2 ⟨hmem, hclose⟩, fun r hr => hleast r (mem_nearby.1 hr).1,
      fun r hr => hfirst r (mem_nearby.1 hr).1⟩
  · rintro ⟨hc, hleast, hfirst⟩
    obtain ⟨hmem, hclose⟩ := mem_nearby.1 hc
    refine ⟨hmem, ?_, ?_, ?_⟩
    all_goals simp only [Text.editDistance_eq]
    · exact hclose
    · intro r hr
      by_cases hnear : r ∈ nearby name names
      · exact hleast r hnear
      · exact (distance_lt_of_not_nearby hc hr hnear).le
    · intro r hr hbefore
      by_cases hnear : r ∈ nearby name names
      · exact hfirst r hnear hbefore
      · exact distance_lt_of_not_nearby hc hr hnear

/- In names that ascend, the first of the closest is the one that no other as close is before. -/
theorem closest?_eq_some_iff {names : List String} (hsorted : names.Pairwise (· < ·))
    (name c : String) : closest? name names = some c ↔ Nearest names name c := by
  have hnearby : (nearby name names).Pairwise (· < ·) := hsorted.filter _
  rw [closest?_eq_argmin, List.argmin_eq_some_iff, nearest_iff_nearby]
  refine and_congr_right fun hc => and_congr_right fun _ => forall₂_congr fun r hr => ?_
  rw [idxOf_le_idxOf_iff hnearby hc hr, Text.bytes_lt_iff, ← not_lt, ← not_lt]
  exact not_imp_not

theorem closest?_eq_none_iff (name : String) (names : List String) :
    closest? name names = none ↔ ∀ r ∈ names, 3 < Text.editDistance name r := by
  rw [closest?_eq_argmin, List.argmin_eq_none, List.eq_nil_iff_forall_not_mem]
  simp only [mem_nearby, not_and, not_le, Text.editDistance_eq]
  exact Iff.rfl

theorem Nearest.of_mem_iff {names others : List String} (h : ∀ r, r ∈ names ↔ r ∈ others)
    {name c : String} (hc : Nearest names name c) : Nearest others name c :=
  ⟨(h c).1 hc.mem, hc.close, fun r hr => hc.least r ((h r).2 hr),
    fun r hr => hc.first r ((h r).2 hr)⟩

/- A name without variants is refused, and the nearest of the names that have some is suggested as
long as it is at most three edits away. -/
theorem nearest_name_suggested [RandomSource σ] {maxDepth : Nat} (hpos : 0 < maxDepth)
    (vs : List (Variant α)) {name : String} (hname : ∀ v ∈ vs, v.name ≠ name) :
    ∃ suggestion,
      (∀ source : σ,
        (declare maxDepth hpos vs).pickFrom name source =
          (.error (.noSuchRule name suggestion), source) ∧
        (declare maxDepth hpos vs).pick name source = .error (.noSuchRule name suggestion)) ∧
      (∀ c, suggestion = some c ↔ Nearest (vs.map Variant.name) name c) ∧
      (suggestion = none ↔ ∀ r ∈ vs.map Variant.name, 3 < Text.editDistance name r) := by
  obtain ⟨hindexed, hvariants, -⟩ := indexed_declare maxDepth hpos vs
  have hnames : ∀ r, r ∈ (declare maxDepth hpos vs).ruleNames ↔ r ∈ vs.map Variant.name := by
    intro r
    rw [hindexed.mem_iff, hvariants, List.mem_map]
  have hunknown : ¬(declare maxDepth hpos vs).index.contains name := by
    rw [← mem_ruleNames, hnames, List.mem_map]
    rintro ⟨v, hv, heq⟩
    exact hname v hv heq
  refine ⟨closest? name (declare maxDepth hpos vs).ruleNames, fun source => ⟨?_, ?_⟩, ?_, ?_⟩
  · simp only [pickFrom, hunknown, Bool.false_eq_true, if_false]
  · simp only [pick_eq, hunknown, Bool.false_eq_true, if_false]
  · intro c
    rw [closest?_eq_some_iff (pairwise_ruleNames _)]
    exact ⟨.of_mem_iff hnames, .of_mem_iff fun r => (hnames r).symm⟩
  · simp only [closest?_eq_none_iff, hnames]

/- Two rules that are one edit away from `tap`, and one that is far from it. -/
def gardenRules : List (Variant Float) :=
  [{ name := "top" }, { name := "spiral" }, { name := "tip" }]

theorem garden_suggestions :
    (∀ v ∈ gardenRules, v.name ≠ "tap" ∧ v.name ≠ "entry") ∧
    (declare 3 (by decide) gardenRules).pick "tap" (ChaCha.Generator.ofSeed 7) =
      .error (.noSuchRule "tap" (some "tip")) ∧
    (declare 3 (by decide) gardenRules).pick "entry" (ChaCha.Generator.ofSeed 7) =
      .error (.noSuchRule "entry" none) := by
  have htap : ∀ v ∈ gardenRules, v.name ≠ "tap" := by decide
  have hentry : ∀ v ∈ gardenRules, v.name ≠ "entry" := by decide
  have htip : Nearest (gardenRules.map Variant.name) "tap" "tip" := by
    refine ⟨by decide, ?_, ?_, ?_⟩
    all_goals
      simp only [Text.editDistance_eq]
      decide +kernel
  have hnone : ∀ r ∈ gardenRules.map Variant.name, 3 < Text.editDistance "entry" r := by
    simp only [Text.editDistance_eq]
    decide +kernel
  obtain ⟨_, hrefused, hsome, -⟩ :=
    nearest_name_suggested (σ := ChaCha.Generator) (by decide : 0 < 3) gardenRules htap
  obtain ⟨_, hrefused', -, hnothing⟩ :=
    nearest_name_suggested (σ := ChaCha.Generator) (by decide : 0 < 3) gardenRules hentry
  refine ⟨fun v hv => ⟨htap v hv, hentry v hv⟩, ?_, ?_⟩
  · rw [← (hsome "tip").2 htip]
    exact (hrefused _).2
  · rw [← hnothing.2 hnone]
    exact (hrefused' _).2

end ProceduralShapes.Grammar
