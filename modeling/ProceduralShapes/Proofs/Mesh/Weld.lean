import ProceduralShapes.Proofs.Mesh.Lattice

/-!
# What a weld does to a mesh

Every vertex of a mesh is sent to a kept one: itself, or one before it that is near. The kept
vertices stay in their order, and the faces are renumbered by where their corners are sent. None
of this rests on a law of arithmetic, so it holds under any rounding.
-/

namespace ProceduralShapes

variable {α : Type}

/- The numbers of the corners of a face. -/
def Face.indices (f : Face) : Nat × Nat × Nat := (f.a.toNat, f.b.toNat, f.c.toNat)

theorem Face.within_iff {n : Nat} {f : Face} :
    f.within n = true ↔ f.a.toNat < n ∧ f.b.toNat < n ∧ f.c.toNat < n := by
  simp only [within, Bool.and_eq_true, decide_eq_true_eq, and_assoc]

/- Three numbers of which no two are the same. -/
def pairwiseDistinct : Nat × Nat × Nat → Bool
  | (a, b, c) => a ≠ b ∧ b ≠ c ∧ a ≠ c

namespace Mesh

/-! ### Tracing the vertices -/

section Tracing
variable [Scalar α] [LE α] [DecidableLE α] [Finiteness α]

/- The welding `w` has taken in the vertices `ps`, and `origins` says which of them it kept. -/
structure Traced (t : Tolerance α) (ps : Array (Point α)) (w : Welding α)
    (origins : Array Nat) : Prop where
  remap_size : w.remap.size = ps.size
  origins_size : origins.size = w.kept.size
  origin_lt : ∀ k i : Nat, origins[k]? = some i → i < ps.size
  increasing : ∀ k l i j : Nat, k < l → origins[k]? = some i → origins[l]? = some j → i < j
  kept_eq : ∀ k i : Nat, origins[k]? = some i →
    w.kept[k]? = ps[i]? ∧ w.remap[i]? = some k.toUInt32
  image : ∀ (i : Nat) (n : UInt32) (p : Point α), w.remap[i]? = some n → ps[i]? = some p →
    ∃ j, origins[n.toNat]? = some j ∧
      (j = i ∨ j < i ∧ p.isFinite = true ∧
        ∃ q, w.kept[n.toNat]? = some q ∧ q.isFinite = true ∧ t.nearPoint q p = true)
  sublist : w.kept.toList.Sublist ps.toList

theorem traced_empty (t : Tolerance α) : Traced t #[] {} #[] where
  remap_size := rfl
  origins_size := rfl
  origin_lt := by simp
  increasing := by simp
  kept_eq := by simp
  image := by simp
  sublist := .slnil

/- The next vertex is kept, and there is a number for it. -/
theorem traced_keep {t : Tolerance α} {ps : Array (Point α)} {w w' : Welding α}
    {origins : Array Nat} {p : Point α} (h : Traced t ps w origins)
    (hsize : w.kept.size < UInt32.size) (hkept : w'.kept = w.kept.push p)
    (hremap : w'.remap = w.remap.push w.kept.size.toUInt32) :
    Traced t (ps.push p) w' (origins.push ps.size) where
  remap_size := by rw [hremap, Array.size_push, Array.size_push, h.remap_size]
  origins_size := by rw [hkept, Array.size_push, Array.size_push, h.origins_size]
  origin_lt := by
    intro k i hk
    rw [Array.size_push]
    rcases getElem?_push_eq_some.1 hk with hold | ⟨_, rfl⟩
    · exact Nat.lt_succ_of_lt (h.origin_lt k i hold)
    · exact Nat.lt_succ_self _
  increasing := by
    intro k l i j hkl hk hl
    rcases getElem?_push_eq_some.1 hk with hk | ⟨hk, _⟩
    · rcases getElem?_push_eq_some.1 hl with hl | ⟨_, rfl⟩
      · exact h.increasing k l i j hkl hk hl
      · exact h.origin_lt k i hk
    · rcases getElem?_push_eq_some.1 hl with hl | ⟨hl, _⟩
      · have hlt := lt_size_of_getElem? hl
        omega
      · omega
  kept_eq := by
    intro k i hk
    rw [hkept, hremap]
    rcases getElem?_push_eq_some.1 hk with hold | ⟨rfl, rfl⟩
    · obtain ⟨hkept, hremap⟩ := h.kept_eq k i hold
      have hi := h.origin_lt k i hold
      have hlt : k < w.kept.size := by
        rw [← h.origins_size]
        exact lt_size_of_getElem? hold
      rw [getElem?_push_of_lt hlt, getElem?_push_of_lt hi,
        getElem?_push_of_lt (h.remap_size ▸ hi)]
      exact ⟨hkept, hremap⟩
    · constructor
      · rw [h.origins_size, Array.getElem?_push_size, Array.getElem?_push_size]
      · rw [← h.remap_size, Array.getElem?_push_size, h.origins_size]
  image := by
    intro i n q hr hq
    rw [hremap] at hr
    rcases getElem?_push_eq_some.1 hr with hold | ⟨rfl, rfl⟩
    · have hi : i < ps.size := h.remap_size ▸ lt_size_of_getElem? hold
      rw [getElem?_push_of_lt hi] at hq
      obtain ⟨j, hj, hwhich⟩ := h.image i n q hold hq
      refine ⟨j, getElem?_push_eq_some.2 (.inl hj), ?_⟩
      rcases hwhich with hself | ⟨hlt, hfinite, z, hz, hnear⟩
      · exact .inl hself
      · refine .inr ⟨hlt, hfinite, z, ?_, hnear⟩
        rw [hkept]
        exact getElem?_push_eq_some.2 (.inl hz)
    · have hnumber : w.kept.size.toUInt32.toNat = origins.size :=
        (Nat.mod_eq_of_lt hsize).trans h.origins_size.symm
      refine ⟨ps.size, getElem?_push_eq_some.2 (.inr ⟨hnumber, rfl⟩), .inl ?_⟩
      exact h.remap_size.symm
  sublist := by
    rw [hkept, Array.toList_push, Array.toList_push]
    exact h.sublist.append (List.Sublist.refl _)

/- The next vertex is sent to one kept before. -/
theorem traced_join {t : Tolerance α} {ps : Array (Point α)} {w : Welding α}
    {origins : Array Nat} {p q : Point α} {n : UInt32} (h : Traced t ps w origins)
    (hp : p.isFinite = true) (hn : w.kept[n.toNat]? = some q) (hq : q.isFinite = true)
    (hnear : t.nearPoint q p = true) : Traced t (ps.push p) (w.join n) origins where
  remap_size := by
    have hremap : (w.join n).remap = w.remap.push n := rfl
    rw [hremap, Array.size_push, Array.size_push, h.remap_size]
  origins_size := h.origins_size
  origin_lt := by
    intro l i hl
    rw [Array.size_push]
    exact Nat.lt_succ_of_lt (h.origin_lt l i hl)
  increasing := h.increasing
  kept_eq := by
    intro l i hl
    have hkept : (w.join n).kept = w.kept := rfl
    have hremap : (w.join n).remap = w.remap.push n := rfl
    have hi := h.origin_lt l i hl
    rw [hkept, hremap, getElem?_push_of_lt hi, getElem?_push_of_lt (h.remap_size ▸ hi)]
    exact h.kept_eq l i hl
  image := by
    intro i l z hr hz
    have hremap : (w.join n).remap = w.remap.push n := rfl
    rw [hremap] at hr
    rcases getElem?_push_eq_some.1 hr with hold | ⟨rfl, rfl⟩
    · have hi : i < ps.size := h.remap_size ▸ lt_size_of_getElem? hold
      rw [getElem?_push_of_lt hi] at hz
      exact h.image i l z hold hz
    · rw [h.remap_size, Array.getElem?_push_size] at hz
      cases hz
      have hlt : n.toNat < origins.size := h.origins_size ▸ lt_size_of_getElem? hn
      refine ⟨origins[n.toNat], Array.getElem?_eq_getElem hlt, .inr ⟨?_, hp, q, hn, hq, hnear⟩⟩
      rw [h.remap_size]
      exact h.origin_lt n.toNat _ (Array.getElem?_eq_getElem hlt)
  sublist := by
    rw [Array.toList_push]
    exact h.sublist.trans (List.sublist_append_left _ _)

theorem traced_welding [CellIndex α] (t : Tolerance α) {m : Mesh α}
    (hsize : m.vertexCount ≤ UInt32.size) :
    ∃ origins, Traced t m.positions (m.welding t) origins := by
  refine numbered_induction (t := t)
    (P := fun ps w => ∃ origins, Traced t ps w origins) ⟨#[], traced_empty t⟩ ?_ hsize
  rintro ps w p w' hfiled hroom ⟨origins, htraced⟩ hadds
  cases hadds with
  | alone hcell => exact ⟨_, traced_keep htraced hroom rfl rfl⟩
  | joined hcell hfind =>
    obtain ⟨q, hkept, hq, hnear⟩ := near_of_find? hfiled (Nat.le_of_lt hroom) hfind
    exact ⟨origins, traced_join htraced (isFinite_of_cell hcell) hkept hq hnear⟩
  | filed hcell hfind => exact ⟨_, traced_keep htraced hroom rfl rfl⟩

end Tracing

/-! ### Faces -/

/- The face with its corners sent where `image` says, as plain numbers. -/
def imageIndices (image : Nat → Nat) (f : Face) : Nat × Nat × Nat :=
  (image f.a.toNat, image f.b.toNat, image f.c.toNat)

/- Where a welding sends a vertex. -/
def Welding.image (w : Welding α) (i : Nat) : Nat := (w.remap.getD i 0).toNat

theorem indices_renumber (w : Welding α) (f : Face) :
    (w.renumber f).indices = imageIndices w.image f := rfl

theorem proper_eq_pairwiseDistinct (f : Face) : f.proper = pairwiseDistinct f.indices := by
  rw [Bool.eq_iff_iff]
  simp only [Face.proper, Face.indices, pairwiseDistinct, Bool.and_eq_true, bne_iff_ne, ne_eq,
    decide_eq_true_eq, UInt32.toNat_inj]
  exact and_assoc

theorem indices_faces (w : Welding α) (faces : Array Face) :
    (w.mesh faces).faces.toList.map Face.indices =
      (faces.toList.map (imageIndices w.image)).filter pairwiseDistinct := by
  have hfaces : (w.mesh faces).faces.toList = (faces.toList.map w.renumber).filter Face.proper := by
    simp [Welding.mesh]
  have hproper : Face.proper = pairwiseDistinct ∘ Face.indices :=
    funext proper_eq_pairwiseDistinct
  have himage : Face.indices ∘ w.renumber = imageIndices w.image := funext (indices_renumber w)
  rw [hfaces, hproper, ← List.filter_map, List.map_map, himage]

theorem cornersInRange_iff {m : Mesh α} :
    m.cornersInRange = true ↔ ∀ f ∈ m.faces, f.within m.vertexCount = true := by
  rw [cornersInRange, Array.all_eq_true_iff_forall_mem]

theorem validate_eq_ok_iff [Finiteness α] {m : Mesh α} : m.validate = .ok () ↔
    (∀ p ∈ m.positions, p.isFinite) ∧ ∀ f ∈ m.faces, f.within m.vertexCount := by
  have hfinite : m.hasNonFiniteVertex = false ↔ ∀ p ∈ m.positions, p.isFinite := by
    rw [hasNonFiniteVertex, Array.any_eq_false']
    simp
  rw [← hfinite, ← cornersInRange_iff, validate]
  split
  · simp_all
  · split
    · simp_all
    · simp_all

/- Corners of renumbered faces are images of corners. -/
theorem cornersInRange_of_indices {m out : Mesh α} {image : Nat → Nat}
    (hm : m.cornersInRange = true) (himage : ∀ i < m.vertexCount, image i < out.vertexCount)
    (hfaces : out.faces.toList.map Face.indices =
      (m.faces.toList.map (imageIndices image)).filter pairwiseDistinct) :
    out.cornersInRange = true := by
  rw [cornersInRange_iff] at hm ⊢
  intro f hf
  have hmem : f.indices ∈ (m.faces.toList.map (imageIndices image)).filter pairwiseDistinct := by
    rw [← hfaces]
    exact List.mem_map_of_mem (Array.mem_toList_iff.2 hf)
  obtain ⟨e, he, heq⟩ := List.mem_map.1 (List.mem_filter.1 hmem).1
  obtain ⟨hwithinA, hwithinB, hwithinC⟩ := Face.within_iff.1 (hm e (Array.mem_toList_iff.1 he))
  simp only [imageIndices, Face.indices, Prod.mk.injEq] at heq
  obtain ⟨ha, hb, hc⟩ := heq
  rw [Face.within_iff, ← ha, ← hb, ← hc]
  exact ⟨himage _ hwithinA, himage _ hwithinB, himage _ hwithinC⟩

/-! ### Welds -/

section Weld
variable [Scalar α] [LE α] [DecidableLE α] [Finiteness α]

/- The mesh `out` is `m` with near vertices merged, `merged` of them away: vertex `i` of `m` is sent
to vertex `image i`, and vertex `k` of `out` is vertex `origin k` of `m`. -/
structure IsWeld (t : Tolerance α) (m out : Mesh α) (merged : Nat) (image origin : Nat → Nat) :
    Prop where
  sublist : out.positions.toList.Sublist m.positions.toList
  origin_lt : ∀ k < out.vertexCount, origin k < m.vertexCount
  origin_increasing : ∀ k l, k < l → l < out.vertexCount → origin k < origin l
  position_eq : ∀ k < out.vertexCount, out.positions[k]? = m.positions[origin k]?
  image_lt : ∀ i < m.vertexCount, image i < out.vertexCount
  image_origin : ∀ k < out.vertexCount, image (origin k) = k
  kept_or_near : ∀ (i : Nat) (p : Point α), m.positions[i]? = some p →
    origin (image i) = i ∨ origin (image i) < i ∧ p.isFinite = true ∧
      ∃ q, out.positions[image i]? = some q ∧ t.nearPoint q p = true
  nonfinite_alone : ∀ (i : Nat) (p : Point α), m.positions[i]? = some p → p.isFinite = false →
    origin (image i) = i ∧ ∀ j < m.vertexCount, image j = image i → j = i
  faces_eq : out.faces.toList.map Face.indices =
    (m.faces.toList.map (imageIndices image)).filter pairwiseDistinct
  cornersInRange : out.cornersInRange = true
  merged_eq : merged + out.vertexCount = m.vertexCount

theorem Traced.origin_eq {t : Tolerance α} {ps : Array (Point α)} {w : Welding α}
    {origins : Array Nat} (h : Traced t ps w origins) {k : Nat} (hk : k < w.kept.size) :
    origins[k]? = some (origins.getD k 0) := by
  have hlt : k < origins.size := h.origins_size ▸ hk
  rw [Array.getElem?_eq_getElem hlt, Array.getD_eq_getD_getElem?, Array.getElem?_eq_getElem hlt]
  rfl

theorem Traced.image_eq {t : Tolerance α} {ps : Array (Point α)} {w : Welding α}
    {origins : Array Nat} (h : Traced t ps w origins) {i : Nat} (hi : i < ps.size) :
    ∃ n, w.remap[i]? = some n ∧ n.toNat = w.image i := by
  have hlt : i < w.remap.size := h.remap_size ▸ hi
  refine ⟨w.remap[i], Array.getElem?_eq_getElem hlt, ?_⟩
  rw [Welding.image, Array.getD_eq_getD_getElem?, Array.getElem?_eq_getElem hlt, Option.getD_some]

/- Where a vertex is sent: to itself, or to one kept before it that is finite, as it is, and
near. -/
theorem Traced.origin_image {t : Tolerance α} {ps : Array (Point α)} {w : Welding α}
    {origins : Array Nat} (h : Traced t ps w origins) {i : Nat} {p : Point α}
    (hp : ps[i]? = some p) : w.image i < w.kept.size ∧
      (origins.getD (w.image i) 0 = i ∨ origins.getD (w.image i) 0 < i ∧ p.isFinite = true ∧
        ∃ q, w.kept[w.image i]? = some q ∧ q.isFinite = true ∧ t.nearPoint q p = true) := by
  obtain ⟨n, hn, himage⟩ := h.image_eq (lt_size_of_getElem? hp)
  obtain ⟨j, hj, hwhich⟩ := h.image i n p hn hp
  rw [himage] at hj hwhich
  have hlt : w.image i < w.kept.size := h.origins_size ▸ lt_size_of_getElem? hj
  have heq : origins.getD (w.image i) 0 = j := by
    have hsome := h.origin_eq hlt
    rw [hj] at hsome
    exact (Option.some.inj hsome).symm
  rw [heq]
  exact ⟨hlt, hwhich⟩

theorem Traced.isWeld {t : Tolerance α} {m : Mesh α} {w : Welding α} {origins : Array Nat}
    (h : Traced t m.positions w origins) (hm : m.cornersInRange = true)
    (hsize : m.vertexCount ≤ UInt32.size) :
    IsWeld t m (w.mesh m.faces) (m.vertexCount - w.kept.size) w.image
      (fun k => origins.getD k 0) := by
  have hle : w.kept.size ≤ m.vertexCount := h.sublist.length_le
  have himage : ∀ i < m.vertexCount, w.image i < w.kept.size := by
    intro i hi
    exact (h.origin_image (Array.getElem?_eq_getElem hi)).1
  have hfaces := indices_faces w m.faces
  refine ⟨h.sublist, ?_, ?_, ?_, himage, ?_, ?_, ?_, hfaces, ?_, Nat.sub_add_cancel hle⟩
  · intro k hk
    exact h.origin_lt k _ (h.origin_eq hk)
  · intro k l hkl hl
    exact h.increasing k l _ _ hkl (h.origin_eq (Nat.lt_trans hkl hl)) (h.origin_eq hl)
  · intro k hk
    exact (h.kept_eq k _ (h.origin_eq hk)).1
  · intro k hk
    obtain ⟨_, hremap⟩ := h.kept_eq k _ (h.origin_eq hk)
    obtain ⟨n, hn, himage⟩ := h.image_eq (h.origin_lt k _ (h.origin_eq hk))
    rw [hremap] at hn
    cases hn
    rw [← himage]
    exact toNat_number (Nat.le_trans hle hsize) (Array.getElem?_eq_getElem hk)
  · intro i p hp
    rcases (h.origin_image hp).2 with hself | ⟨hlt, hfinite, q, hq, _, hnear⟩
    · exact .inl hself
    · exact .inr ⟨hlt, hfinite, q, hq, hnear⟩
  · intro i p hp hinfinite
    have hself : origins.getD (w.image i) 0 = i := by
      rcases (h.origin_image hp).2 with hself | ⟨_, hfinite, _⟩
      · exact hself
      · rw [hinfinite] at hfinite
        cases hfinite
    refine ⟨hself, ?_⟩
    intro j hj hsame
    -- Whatever shares its image with a vertex of its own is that vertex or near to it.
    rcases (h.origin_image (Array.getElem?_eq_getElem hj)).2 with hown | ⟨_, _, q, hq, hfinite, _⟩
    · rw [hsame, hself] at hown
      exact hown.symm
    · have hkept := (h.kept_eq _ _ (h.origin_eq (himage i (lt_size_of_getElem? hp)))).1
      rw [hself, hp, ← hsame, hq] at hkept
      cases hkept
      rw [hinfinite] at hfinite
      cases hfinite
  · exact cornersInRange_of_indices hm himage hfaces

theorem weld_of_weldable [LT α] [DecidableLT α] [CellIndex α] {t : Tolerance α} {m : Mesh α}
    (ht : weldable t) (hm : m.cornersInRange = true) :
    m.weld t = .ok ((m.welding t).mesh m.faces, m.vertexCount - (m.welding t).kept.size) := by
  rw [weld, if_pos ht, if_pos hm]

/- Welding a mesh gives a weld of it. -/
theorem weld_isWeld [LT α] [DecidableLT α] [CellIndex α] (t : Tolerance α) (m : Mesh α)
    (ht : weldable t) (hm : m.cornersInRange = true) (hsize : m.vertexCount ≤ UInt32.size) :
    ∃ out merged image origin, m.weld t = .ok (out, merged) ∧
      IsWeld t m out merged image origin := by
  obtain ⟨origins, h⟩ := traced_welding t hsize
  refine ⟨_, _, _, _, ?_, h.isWeld hm hsize⟩
  rw [weld, if_pos ht, if_pos hm]

end Weld

/- Two near vertices and one that is no place, as the corners of two faces. -/
def sliver : Mesh Float :=
  ⟨#[⟨0, 0, 0⟩, ⟨0.25, 0, 0⟩, ⟨0.0 / 0.0, 0, 0⟩], #[⟨0, 1, 2⟩, ⟨2, 1, 0⟩]⟩

theorem sliver_isWeld : weldable (⟨0.5⟩ : Tolerance Float) ∧ sliver.cornersInRange = true ∧
    sliver.vertexCount ≤ UInt32.size ∧
    ∃ out merged image origin, sliver.weld ⟨0.5⟩ = .ok (out, merged) ∧
      IsWeld ⟨0.5⟩ sliver out merged image origin := by
  have ht : weldable (⟨0.5⟩ : Tolerance Float) := by decide
  have hm : sliver.cornersInRange = true := by
    simp [cornersInRange, vertexCount, sliver, Face.within]
  have hsize : sliver.vertexCount ≤ UInt32.size := by decide
  exact ⟨ht, hm, hsize, weld_isWeld ⟨0.5⟩ sliver ht hm hsize⟩

end Mesh

end ProceduralShapes
