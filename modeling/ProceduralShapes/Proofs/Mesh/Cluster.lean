import Mathlib.Data.Finset.Card
import ProceduralShapes.Proofs.Mesh.FirstFit
import ProceduralShapes.Proofs.Mesh.Weld

/-!
# Welding clusters

Near to one another is no equivalence in general, so which vertices a weld joins depends on their
order. Where the vertices fall into clusters, near exactly if they bear the same label, it does
not: two vertices are joined exactly if their labels agree, and the weld keeps as many vertices
as there are labels.
-/

namespace ProceduralShapes

variable {α β K : Type}

/- The point with its coordinates read by `value`. -/
def Point.map (value : α → K) (p : Point α) : Point K := ⟨value p.x, value p.y, value p.z⟩

namespace Mesh

/- The mesh with its coordinates read by `value`. -/
def map (value : α → K) (m : Mesh α) : Mesh K := ⟨m.positions.map (·.map value), m.faces⟩

theorem vertexCount_map (value : α → K) (m : Mesh α) :
    (m.map value).vertexCount = m.vertexCount := Array.size_map

theorem cornersInRange_map (value : α → K) (m : Mesh α) :
    (m.map value).cornersInRange = m.cornersInRange := by
  rw [cornersInRange, vertexCount_map]
  rfl

open Exact
variable [Field K] [LinearOrder K]

/- Different vertices are near exactly if they bear the same label. -/
def Clustered (eps : K) (m : Mesh K) (label : Nat → β) : Prop :=
  ∀ i j p q, i ≠ j → m.positions[i]? = some p → m.positions[j]? = some q →
    (Within eps p q ↔ label i = label j)

/-! ### What is joined -/

section Joined
variable {t : Tolerance K} {m out : Mesh K} {merged : Nat} {image origin : Nat → Nat}
  {label : Nat → β}

theorem label_origin (hweld : IsWeld t m out merged image origin)
    (hlabel : m.Clustered t.eps label) {i : Nat} (hi : i < m.vertexCount) :
    label (origin (image i)) = label i := by
  have hp : m.positions[i]? = some m.positions[i] := Array.getElem?_eq_getElem hi
  rcases hweld.kept_or_near i _ hp with hself | ⟨hlt, -, q, hq, hnear⟩
  · rw [hself]
  · have hkept := hweld.position_eq _ (hweld.image_lt i hi)
    rw [hq] at hkept
    exact (hlabel _ i q _ (Nat.ne_of_lt hlt) hkept.symm hp).1 (nearPoint_iff_within.1 hnear)

/- Kept vertices bear different labels. -/
theorem label_kept_inj (hweld : IsWeld t m out merged image origin)
    (hlabel : m.Clustered t.eps label)
    (hfar : out.positions.toList.Pairwise fun q p => ¬Within t.eps q p) {k l : Nat}
    (hkl : k < l) (hl : l < out.vertexCount) : label (origin k) ≠ label (origin l) := by
  intro hsame
  have hk : k < out.vertexCount := Nat.lt_trans hkl hl
  have hne : origin k ≠ origin l := Nat.ne_of_lt (hweld.origin_increasing k l hkl hl)
  have hpk := hweld.position_eq k hk
  have hpl := hweld.position_eq l hl
  rw [Array.getElem?_eq_getElem hk] at hpk
  rw [Array.getElem?_eq_getElem hl] at hpl
  have hnear := (hlabel _ _ _ _ hne hpk.symm hpl.symm).2 hsame
  exact List.pairwise_iff_getElem.1 hfar k l hk hl hkl hnear

theorem label_kept (hweld : IsWeld t m out merged image origin)
    (hlabel : m.Clustered t.eps label)
    (hfar : out.positions.toList.Pairwise fun q p => ¬Within t.eps q p) {k l : Nat}
    (hk : k < out.vertexCount) (hl : l < out.vertexCount)
    (hsame : label (origin k) = label (origin l)) : k = l := by
  rcases Nat.lt_trichotomy k l with hlt | heq | hlt
  · exact absurd hsame (label_kept_inj hweld hlabel hfar hlt hl)
  · exact heq
  · exact absurd hsame.symm (label_kept_inj hweld hlabel hfar hlt hk)

theorem image_eq_iff (hweld : IsWeld t m out merged image origin)
    (hlabel : m.Clustered t.eps label)
    (hfar : out.positions.toList.Pairwise fun q p => ¬Within t.eps q p) {i j : Nat}
    (hi : i < m.vertexCount) (hj : j < m.vertexCount) :
    image i = image j ↔ label i = label j := by
  have hlabeli := label_origin hweld hlabel hi
  have hlabelj := label_origin hweld hlabel hj
  constructor
  · intro hsame
    rw [← hlabeli, ← hlabelj, hsame]
  · intro hsame
    rw [← hlabeli, ← hlabelj] at hsame
    exact label_kept hweld hlabel hfar (hweld.image_lt i hi) (hweld.image_lt j hj) hsame

/- One vertex is kept for every label. -/
theorem vertexCount_eq_card [DecidableEq β] (hweld : IsWeld t m out merged image origin)
    (hlabel : m.Clustered t.eps label)
    (hfar : out.positions.toList.Pairwise fun q p => ¬Within t.eps q p) :
    out.vertexCount = ((Finset.range m.vertexCount).image label).card := by
  have hlabels : (Finset.range m.vertexCount).image label =
      (Finset.range out.vertexCount).image (label ∘ origin) := by
    ext b
    simp only [Finset.mem_image, Finset.mem_range, Function.comp_apply]
    constructor
    · intro ⟨i, hi, hb⟩
      exact ⟨image i, hweld.image_lt i hi, (label_origin hweld hlabel hi).trans hb⟩
    · intro ⟨k, hk, hb⟩
      exact ⟨origin k, hweld.origin_lt k hk, hb⟩
  have hinj : Set.InjOn (label ∘ origin) (Finset.range out.vertexCount) := by
    intro k hk l hl hsame
    exact label_kept hweld hlabel hfar (Finset.mem_range.1 hk) (Finset.mem_range.1 hl) hsame
  rw [hlabels, Finset.card_image_of_injOn hinj, Finset.card_range]

end Joined

/-! ### Welding a mesh of clusters -/

variable [IsStrictOrderedRing K] [FloorRing K]

theorem weld_clustered [DecidableEq β] {t : Tolerance K} {m : Mesh K} {label : Nat → β}
    (heps : 0 < t.eps) (hm : m.cornersInRange = true) (hsize : m.vertexCount ≤ UInt32.size)
    (hlabel : m.Clustered t.eps label) :
    ∃ out merged image origin, m.weld t = .ok (out, merged) ∧
      IsWeld t m out merged image origin ∧
      out.vertexCount = ((Finset.range m.vertexCount).image label).card ∧
      ∀ i < m.vertexCount, ∀ j < m.vertexCount, image i = image j ↔ label i = label j := by
  obtain ⟨origins, htraced⟩ := traced_welding t hsize
  have hweld := htraced.isWeld hm hsize
  have hfar : ((m.welding t).mesh m.faces).positions.toList.Pairwise
      fun q p => ¬Within t.eps q p := by
    have hkept : (m.welding t).kept.toList = (firstFit t.eps m.positions.toList).1 :=
      kept_welding heps (Nat.le_trans (length_firstFit_le _ _) hsize)
    have hpairwise := firstFit_pairwise t.eps m.positions.toList
    rw [← hkept] at hpairwise
    exact hpairwise
  have hweldable : weldable t := ⟨rfl, heps⟩
  refine ⟨_, _, _, _, ?_, hweld, vertexCount_eq_card hweld hlabel hfar, ?_⟩
  · rw [weld, if_pos hweldable, if_pos hm]
  · intro i hi j hj
    exact image_eq_iff hweld hlabel hfar hi hj

end Mesh

end ProceduralShapes
