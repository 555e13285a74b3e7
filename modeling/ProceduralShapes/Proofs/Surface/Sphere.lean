import ProceduralShapes.Proofs.Mesh.Pinch
import ProceduralShapes.Proofs.Reals

/-!
# Spheres

A surface whose first circle of samples is a single point up to the tolerance, and whose last is
another, tessellates to a tube that welding draws together at both ends (`Pinched`). What comes
out is a sphere: the poles are one vertex each, the faces are the surviving halves of the tube,
and the mesh is closed. The coordinates may be of any kind, as long as they are read as numbers of
a field before they are compared.
-/

namespace ProceduralShapes.Mesh

open Grid

/-! ### Welding a tube -/

section Faces
variable {slices len : Nat} {vertex : Place → Nat}

/- Places are sent to the same vertex exactly if drawing the ends together makes them one. -/
def Pinches (slices len : Nat) (vertex : Place → Nat) : Prop :=
  ∀ p q, Inside (slices + 1) len p → Inside (slices + 1) len q →
    (vertex p = vertex q ↔ Meets slices p q)

theorem pairwiseDistinct_corners (h : Pinches slices len vertex) (hlen : 2 ≤ len) {t : Tile}
    (ht : t ∈ tiles .tube (slices + 1) len) :
    pairwiseDistinct (Triangle.map vertex (corners (slices + 1) len t)) = survives slices t := by
  have hinside := inside_corners ht (Nat.succ_pos slices)
  obtain ⟨⟨i, j⟩, half⟩ := t
  obtain ⟨hi, hj⟩ : i < slices ∧ j < len := mem_tiles.1 ht
  have hnext := next_cases hj
  rw [Bool.eq_iff_iff]
  cases half with
  | first =>
    rw [corners_first hi] at hinside ⊢
    have hab := h (i, j) (i, (j + 1) % len) hinside.1 hinside.2.1
    have hbc := h (i, (j + 1) % len) (i + 1, j) hinside.2.1 hinside.2.2
    have hac := h (i, j) (i + 1, j) hinside.1 hinside.2.2
    simp only [pairwiseDistinct, Triangle.map, survives, decide_eq_true_eq, ne_eq, hab, hbc, hac,
      Meets, true_and, or_true, and_true]
    omega
  | second =>
    rw [corners_second hi] at hinside ⊢
    have hab := h (i, (j + 1) % len) (i + 1, (j + 1) % len) hinside.1 hinside.2.1
    have hbc := h (i + 1, (j + 1) % len) (i + 1, j) hinside.2.1 hinside.2.2
    have hac := h (i, (j + 1) % len) (i + 1, j) hinside.1 hinside.2.2
    simp only [pairwiseDistinct, Triangle.map, survives, decide_eq_true_eq, ne_eq, hab, hbc, hac,
      Meets, true_and, or_true, and_true]
    omega

/- The faces that keep three corners are the surviving halves. -/
theorem filter_pairwiseDistinct_tiles (h : Pinches slices len vertex) (hlen : 2 ≤ len) :
    ((tiles .tube (slices + 1) len).map
        (Triangle.map vertex ∘ corners (slices + 1) len)).filter pairwiseDistinct =
      (survivors slices len).map (Triangle.map vertex ∘ corners (slices + 1) len) := by
  have hsame : (tiles .tube (slices + 1) len).filter
      (pairwiseDistinct ∘ (Triangle.map vertex ∘ corners (slices + 1) len)) =
      survivors slices len :=
    List.filter_congr fun t ht => pairwiseDistinct_corners h hlen ht
  rw [List.filter_map, hsame]

variable {α : Type} {m : Mesh α}

theorem triangleCount_of_survivors (hfaces : m.faces.toList.map Face.indices =
    (survivors slices len).map (Triangle.map vertex ∘ corners (slices + 1) len)) :
    m.triangleCount = 2 * len * (slices - 1) := by
  have hlength := congrArg List.length hfaces
  rw [List.length_map, List.length_map, length_survivors] at hlength
  exact hlength

theorem inside_sideOf {t : Tile} (ht : t ∈ survivors slices len) (k : Fin 3) :
    Inside (slices + 1) len (sideOf slices len t k).1 ∧
      Inside (slices + 1) len (sideOf slices len t k).2 :=
  inside_side (List.mem_filter.1 ht).1 (Nat.succ_pos slices) k

theorem isClosed_of_survivors (h : Pinches slices len vertex) (hlen : 3 ≤ len)
    (hfaces : m.faces.toList.map Face.indices =
      (survivors slices len).map (Triangle.map vertex ∘ corners (slices + 1) len)) :
    m.IsClosed := by
  refine isClosed_of_mates hfaces (nodup_survivors slices len) ?_ ?_
  · intro t ht k t' ht' k' hsame
    obtain ⟨hstart, hend⟩ := inside_sideOf ht k
    obtain ⟨hstart', hend'⟩ := inside_sideOf ht' k'
    rw [Function.comp_apply, Function.comp_apply, Triangle.side_map, Triangle.side_map,
      Prod.ext_iff] at hsame
    exact side_inj hlen ht ht' ⟨(h _ _ hstart hstart').1 hsame.1, (h _ _ hend hend').1 hsame.2⟩
  · intro t ht k
    obtain ⟨t', ht', k', hback⟩ := exists_mate ht k
    obtain ⟨hstart, hend⟩ := inside_sideOf ht k
    obtain ⟨hstart', hend'⟩ := inside_sideOf ht' k'
    refine ⟨t', ht', k', ?_⟩
    rw [Function.comp_apply, Function.comp_apply, Triangle.side_map, Triangle.side_map]
    exact Prod.ext ((h _ _ hstart' hend).2 hback.1) ((h _ _ hend' hstart).2 hback.2)

end Faces

/-! ### Tessellating and welding -/

section Weld
open Exact
variable {α K : Type} [Field K] [LinearOrder K]

/- The samples of the first row are near to each other, those of the last row are, and no others. -/
structure Pinched (eps : K) (slices sectors : Nat) (sample : Nat → Nat → Point K) : Prop where
  first : ∀ j < sectors, ∀ j' < sectors, Within eps (sample 0 j) (sample 0 j')
  last : ∀ j < sectors, ∀ j' < sectors, Within eps (sample slices j) (sample slices j')
  apart : ∀ i ≤ slices, ∀ j < sectors, ∀ i' ≤ slices, ∀ j' < sectors, (i, j) ≠ (i', j') →
    ¬(i = i' ∧ (i = 0 ∨ i = slices)) → ¬Within eps (sample i j) (sample i' j')

theorem Pinched.within_iff {eps : K} {slices sectors : Nat} {sample : Nat → Nat → Point K}
    (h : Pinched eps slices sectors sample) {p q : Place} (hp : Inside (slices + 1) sectors p)
    (hq : Inside (slices + 1) sectors q) (hne : p ≠ q) :
    Within eps (sample p.1 p.2) (sample q.1 q.2) ↔ Meets slices p q := by
  obtain ⟨i, j⟩ := p
  obtain ⟨i', j'⟩ := q
  constructor
  · intro hnear
    by_cases hpole : i = i' ∧ (i = 0 ∨ i = slices)
    · obtain ⟨hrow, hpole⟩ := hpole
      exact ⟨hrow, hpole.elim .inl fun hlast => .inr (.inl hlast)⟩
    · exact absurd hnear (h.apart i (Nat.le_of_lt_succ hp.1) j hp.2 i'
        (Nat.le_of_lt_succ hq.1) j' hq.2 hne hpole)
  · intro ⟨hrow, hwhich⟩
    simp only at hrow hwhich
    subst hrow
    rcases hwhich with hfirst | hlast | hcolumn
    · subst hfirst
      exact h.first j hp.2 j' hq.2
    · subst hlast
      exact h.last j hp.2 j' hq.2
    · exact absurd (congrArg (Prod.mk i) hcolumn) hne

theorem Pinched.clustered {eps : K} {slices sectors : Nat} {sample : Nat → Nat → Point α}
    {value : α → K} (h : Pinched eps slices sectors fun i j => (sample i j).map value) :
    ((onGrid .tube (slices + 1) sectors sample).map value).Clustered eps
      (pinch slices ∘ place sectors) := by
  intro k l p q hne hp hq
  simp only [Mesh.map, Array.getElem?_map, Option.map_eq_some_iff] at hp hq
  obtain ⟨p, hp, rfl⟩ := hp
  obtain ⟨q, hq, rfl⟩ := hq
  obtain ⟨hk, rfl⟩ := position_onGrid hp
  obtain ⟨hl, rfl⟩ := position_onGrid hq
  have hplaces : place sectors k ≠ place sectors l := by
    intro hsame
    rw [← number_place sectors k, hsame, number_place] at hne
    exact hne rfl
  exact (h.within_iff hk hl hplaces).trans pinch_eq_iff.symm

variable [IsStrictOrderedRing K] [FloorRing K]

/- Welding the tessellation of a surface with two poles gives a closed sphere. -/
theorem weld_tessellate_closed [Scalar α] [Trig α] (value : α → K) (t : Tolerance K)
    (f : Position α) (slices sectors : Nat) (heps : 0 < t.eps) (hslices : 1 ≤ slices)
    (hsectors : 2 ≤ sectors) (hsize : (slices + 1) * sectors ≤ 2 ^ 32)
    (hpinched : Pinched t.eps slices sectors fun i j =>
      (f (i * pi / slices) (j * tau / sectors)).map value) :
    ∃ m out, tessellate slices sectors f .openEnded = .ok m ∧
      (m.map value).weld t = .ok (out, 2 * (sectors - 1)) ∧
      out.vertexCount = (slices - 1) * sectors + 2 ∧
      out.triangleCount = 2 * sectors * (slices - 1) ∧
      (2 ≤ slices → 3 ≤ sectors → out.IsClosed) := by
  set sample : Nat → Nat → Point α := fun i j => f (i * pi / slices) (j * tau / sectors)
  have hrows : 0 < slices + 1 := Nat.succ_pos slices
  have hcount : ((onGrid .tube (slices + 1) sectors sample).map value).vertexCount =
      (slices + 1) * sectors := (vertexCount_map value _).trans (vertexCount_onGrid _ _ _ sample)
  have hcorners : ((onGrid .tube (slices + 1) sectors sample).map value).cornersInRange = true :=
    (cornersInRange_map value _).trans (cornersInRange_onGrid sample hrows hsize)
  obtain ⟨out, merged, image, origin, hout, hweld, hvertices, himage⟩ :=
    weld_clustered heps hcorners (hcount ▸ hsize) hpinched.clustered
  rw [hcount] at hvertices himage
  rw [card_pinched hslices (by omega)] at hvertices
  have hmerged : merged = 2 * (sectors - 1) := by
    have htotal := hweld.merged_eq
    rw [hcount, hvertices] at htotal
    obtain ⟨n, rfl⟩ := Nat.exists_eq_add_of_le hslices
    rw [Nat.add_sub_cancel_left, Nat.add_mul, Nat.add_mul] at htotal
    omega
  have hpinches : Pinches slices sectors (image ∘ number sectors) := by
    intro p q hp hq
    rw [Function.comp_apply, Function.comp_apply, himage _ (number_lt hp) _ (number_lt hq),
      Function.comp_apply, Function.comp_apply, place_number hp, place_number hq, pinch_eq_iff]
  have hfaces : out.faces.toList.map Face.indices = (survivors slices sectors).map
      (Triangle.map (image ∘ number sectors) ∘ corners (slices + 1) sectors) := by
    rw [hweld.faces_eq, imageIndices_eq_map, ← List.map_map]
    simp only [Mesh.map, onGrid]
    rw [indices_strips hrows hsize, List.map_map, ← filter_pairwiseDistinct_tiles hpinches hsectors]
    rfl
  refine ⟨_, out, tessellate_openEnded f hslices (by omega) hsize, ?_, hvertices,
    triangleCount_of_survivors hfaces, ?_⟩
  · rw [hout, hmerged]
  · intro _ hthree
    exact isClosed_of_survivors hpinches hthree hfaces

/- The unit sphere with two slices and four sectors: a pole, a belt and a pole. -/
def octahedron : Nat → Nat → Point ℤ
  | 0, _ => ⟨0, 1, 0⟩
  | 1, 0 => ⟨1, 0, 0⟩
  | 1, 1 => ⟨0, 0, -1⟩
  | 1, 2 => ⟨-1, 0, 0⟩
  | 1, _ => ⟨0, 0, 1⟩
  | _, _ => ⟨0, -1, 0⟩

/- The square of the distance. -/
def gap (p q : Point ℤ) : ℤ := (p.x - q.x) ^ 2 + (p.y - q.y) ^ 2 + (p.z - q.z) ^ 2

/- Samples are the same or at one pole, or at least the root of two apart. -/
theorem octahedron_apart : ∀ (i i' : Fin 3) (j j' : Fin 4),
    i = i' ∧ (i = 0 ∨ i = 2 ∨ j = j') ∨ 1 < 4 * gap (octahedron i j) (octahedron i' j') := by
  decide +kernel

theorem within_half_iff (p q : Point ℤ) :
    Within (1 / 2 : ℝ) (p.map (↑)) (q.map (↑)) ↔ 4 * gap p q ≤ 1 := by
  have hcast : 4 * gap p q ≤ 1 ↔
      4 * (((p.x : ℝ) - q.x) ^ 2 + ((p.y : ℝ) - q.y) ^ 2 + ((p.z : ℝ) - q.z) ^ 2) ≤ 1 := by
    unfold gap
    exact_mod_cast Iff.rfl
  rw [hcast, Within, Point.map, Point.map]
  constructor
  · intro h
    linarith
  · intro h
    linarith

theorem spherePosition_pole {theta : ℝ} (h : Real.sin theta = 0) (phi : ℝ) :
    Surface.spherePosition theta phi = ⟨0, Real.cos theta, 0⟩ := by
  simp only [Surface.spherePosition, sin_def, cos_def, h, zero_mul, neg_zero]

theorem spherePosition_belt (phi : ℝ) :
    Surface.spherePosition (Real.pi / 2) phi = ⟨Real.cos phi, 0, -Real.sin phi⟩ := by
  simp only [Surface.spherePosition, sin_def, cos_def, Real.sin_pi_div_two, Real.cos_pi_div_two,
    one_mul, neg_one_mul]

theorem sphere_samples {i j : Nat} (hi : i ≤ 2) (hj : j < 4) :
    Surface.spherePosition ((i : ℝ) * pi / (2 : Nat)) (j * tau / (4 : Nat)) =
      (octahedron i j).map (↑) := by
  rw [pi_def, tau_def]
  match i with
  | 0 =>
    rw [spherePosition_pole (by simp)]
    simp [octahedron, Point.map]
  | 1 =>
    have hbelt : ((1 : Nat) : ℝ) * Real.pi / (2 : Nat) = Real.pi / 2 := by push_cast; ring
    have hangle : (j : ℝ) * (2 * Real.pi) / (4 : Nat) = j * (Real.pi / 2) := by push_cast; ring
    rw [hbelt, spherePosition_belt, hangle]
    match j with
    | 0 => simp [octahedron, Point.map]
    | 1 => simp [octahedron, Point.map]
    | 2 =>
      have hhalf : ((2 : Nat) : ℝ) * (Real.pi / 2) = Real.pi := by push_cast; ring
      rw [hhalf]
      simp [octahedron, Point.map]
    | 3 =>
      have hhalf : ((3 : Nat) : ℝ) * (Real.pi / 2) = Real.pi / 2 + Real.pi := by push_cast; ring
      rw [hhalf, Real.cos_add_pi, Real.sin_add_pi]
      simp [octahedron, Point.map]
  | 2 =>
    have hpole : ((2 : Nat) : ℝ) * Real.pi / (2 : Nat) = Real.pi := by push_cast; ring
    rw [hpole, spherePosition_pole Real.sin_pi, Real.cos_pi]
    simp [octahedron, Point.map]

theorem octahedron_pinched :
    Pinched (1 / 2 : ℝ) 2 4 fun i j =>
      (Surface.spherePosition ((i : ℝ) * pi / (2 : Nat)) (j * tau / (4 : Nat))).map id := by
  have hsample : ∀ i : Nat, i ≤ 2 → ∀ j : Nat, j < 4 →
      (Surface.spherePosition ((i : ℝ) * pi / (2 : Nat)) (j * tau / (4 : Nat))).map id =
        (octahedron i j).map (↑) := fun i hi j hj => sphere_samples hi hj
  constructor
  · intro j hj j' hj'
    rw [hsample 0 (by decide) j hj, hsample 0 (by decide) j' hj', within_half_iff]
    simp [octahedron, gap]
  · intro j hj j' hj'
    rw [hsample 2 (by decide) j hj, hsample 2 (by decide) j' hj', within_half_iff]
    simp [octahedron, gap]
  · intro i hi j hj i' hi' j' hj' hne hpole
    rw [hsample i hi j hj, hsample i' hi' j' hj', within_half_iff]
    have hapart := octahedron_apart ⟨i, Nat.lt_succ_of_le hi⟩ ⟨i', Nat.lt_succ_of_le hi'⟩ ⟨j, hj⟩
      ⟨j', hj'⟩
    refine Int.not_le.2 (hapart.resolve_left fun ⟨hrow, hwhich⟩ => ?_)
    simp only [Fin.ext_iff] at hrow hwhich
    rw [ne_eq, Prod.mk.injEq] at hne
    omega

theorem octahedron_closed : 0 < (⟨1 / 2⟩ : Tolerance ℝ).eps ∧
    Pinched (1 / 2 : ℝ) 2 4 (fun i j =>
      (Surface.spherePosition ((i : ℝ) * pi / (2 : Nat)) (j * tau / (4 : Nat))).map id) ∧
    ∃ m out, tessellate 2 4 (Surface.spherePosition : Position ℝ) .openEnded = .ok m ∧
      (m.map id).weld ⟨1 / 2⟩ = .ok (out, 6) ∧ out.vertexCount = 6 ∧ out.triangleCount = 8 ∧
      out.IsClosed := by
  have heps : 0 < (⟨1 / 2⟩ : Tolerance ℝ).eps := one_half_pos
  obtain ⟨m, out, htessellate, hweld, hvertices, htriangles, hclosed⟩ :=
    weld_tessellate_closed id ⟨1 / 2⟩ Surface.spherePosition 2 4 heps (by decide) (by decide)
      (by decide) octahedron_pinched
  exact ⟨heps, octahedron_pinched, m, out, htessellate, hweld, hvertices, htriangles,
    hclosed (by decide) (by decide)⟩

end Weld

end ProceduralShapes.Mesh
