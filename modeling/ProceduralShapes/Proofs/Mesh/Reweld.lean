import ProceduralShapes.Proofs.Mesh.Weld

/-!
# Welding again

Welding leaves no vertex that a search from a later one finds (`kept_apart`), and a mesh without
such vertices is left as it is: each is filed where the first run filed it, and none is found. So
welding a welded mesh changes nothing, under any rounding.
-/

namespace ProceduralShapes.Mesh

variable {α : Type}

/-! ### Faces -/

/- The numbers of `n` vertices that are all kept. -/
def numbering (n : Nat) : Array UInt32 := (Array.range n).map Nat.toUInt32

theorem numbering_zero : numbering 0 = #[] := by
  simp [numbering]

theorem numbering_succ (n : Nat) : numbering (n + 1) = (numbering n).push n.toUInt32 := by
  simp [numbering, Array.range_succ]

theorem renumber_of_numbering {w : Welding α} {n : Nat} {f : Face}
    (hremap : w.remap = numbering n) (hf : f.within n = true) : w.renumber f = f := by
  obtain ⟨ha, hb, hc⟩ := Face.within_iff.1 hf
  have hsame : ∀ i : UInt32, i.toNat < n → w.remap.getD i.toNat 0 = i := by
    intro i hi
    rw [hremap, numbering, Array.getD_eq_getD_getElem?, Array.getElem?_map, Array.getElem?_range,
      if_pos hi]
    exact UInt32.ofNat_toNat
  rw [Welding.renumber, hsame _ ha, hsame _ hb, hsame _ hc]

theorem proper_of_mem {w : Welding α} {faces : Array Face} {f : Face}
    (h : f ∈ (w.mesh faces).faces) : f.proper = true := (Array.mem_filter.1 h).2

/- Faces that are proper and among the vertices stay. -/
theorem mesh_of_numbering {w : Welding α} {m : Mesh α} (hkept : w.kept = m.positions)
    (hremap : w.remap = numbering m.vertexCount) (hm : m.cornersInRange = true)
    (hproper : ∀ f ∈ m.faces, f.proper = true) : w.mesh m.faces = m := by
  have hmap : m.faces.map w.renumber = m.faces := by
    rw [Array.map_congr_left fun f hf =>
      renumber_of_numbering hremap (cornersInRange_iff.1 hm f hf)]
    exact Array.map_id' _
  rw [Welding.mesh, hkept, hmap, Array.filter_eq_self.2 hproper]

/-! ### Vertices -/

variable [Scalar α] [LE α] [DecidableLE α] [Finiteness α] [CellIndex α]

/- A search from `p` does not find `q`: it lies outside the cells around, or is not near. -/
def Apart (t : Tolerance α) (q p : Point α) : Prop :=
  ∀ c, Cell.ofPoint? (1 / t.eps) p = some c → ∀ d ∈ c.neighbours,
    Cell.ofPoint? (1 / t.eps) q = some d → t.nearPoint q p = false

theorem apart_of_no_cell {t : Tolerance α} {p : Point α}
    (h : Cell.ofPoint? (1 / t.eps) p = none) (q : Point α) : Apart t q p := by
  intro c hc
  rw [h] at hc
  cases hc

theorem find?_eq_none_iff_apart {t : Tolerance α} {w : Welding α} {c : Cell} {p : Point α}
    (h : w.Filed t) (hsize : w.kept.size ≤ UInt32.size)
    (hc : Cell.ofPoint? (1 / t.eps) p = some c) :
    w.find? t c p = none ↔ ∀ q ∈ w.kept, Apart t q p := by
  rw [find?_eq_none_iff h hsize]
  constructor
  · intro hfar q hq c' hc'
    rw [hc] at hc'
    cases hc'
    exact hfar q hq
  · intro hfar q hq
    exact hfar q hq c hc

theorem pairwise_push {β : Type} {R : β → β → Prop} {xs : Array β} {x : β} :
    (xs.push x).toList.Pairwise R ↔ xs.toList.Pairwise R ∧ ∀ y ∈ xs, R y x := by
  rw [Array.toList_push, List.pairwise_append]
  simp

/- The first run: what it keeps was not found among the vertices kept before. -/
theorem kept_apart (t : Tolerance α) {m : Mesh α} (hsize : m.vertexCount ≤ UInt32.size) :
    (m.welding t).kept.toList.Pairwise (Apart t) := by
  refine numbered_induction (t := t) (P := fun _ w => w.kept.toList.Pairwise (Apart t)) .nil ?_
    hsize
  intro _ w p w' hfiled hroom hapart hadds
  cases hadds with
  | alone hcell => exact pairwise_push.2 ⟨hapart, fun q _ => apart_of_no_cell hcell q⟩
  | joined hcell hfind => exact hapart
  | filed hcell hfind =>
    have hlast := (find?_eq_none_iff_apart hfiled (Nat.le_of_lt hroom) hcell).1 hfind
    exact pairwise_push.2 ⟨hapart, hlast⟩

/- The second run: such vertices are all kept, each standing for itself. -/
theorem welding_of_apart {t : Tolerance α} {m : Mesh α} (hsize : m.vertexCount ≤ UInt32.size)
    (h : m.positions.toList.Pairwise (Apart t)) :
    (m.welding t).kept = m.positions ∧ (m.welding t).remap = numbering m.vertexCount := by
  refine numbered_induction (t := t)
    (P := fun ps w => ps.toList.Pairwise (Apart t) → w.kept = ps ∧ w.remap = numbering ps.size)
    (fun _ => ⟨rfl, numbering_zero.symm⟩) ?_ hsize h
  intro ps w p w' hfiled hroom ih hadds hapart
  obtain ⟨hbefore, hlast⟩ := pairwise_push.1 hapart
  obtain ⟨hkept, hremap⟩ := ih hbefore
  have hpushed : w.kept.push p = ps.push p ∧
      w.remap.push w.kept.size.toUInt32 = numbering (ps.push p).size := by
    rw [hkept, hremap, Array.size_push, numbering_succ]
    exact ⟨rfl, rfl⟩
  cases hadds with
  | alone hcell => exact hpushed
  | joined hcell hfind =>
    have hnone := (find?_eq_none_iff_apart hfiled (Nat.le_of_lt hroom) hcell).2 (hkept ▸ hlast)
    rw [hfind] at hnone
    cases hnone
  | filed hcell hfind => exact hpushed

/-! ### Both runs -/

section Weld
variable [LT α] [DecidableLT α]

/- A mesh without vertices near to one another welds to itself. -/
theorem weld_of_apart {t : Tolerance α} {m : Mesh α} (ht : weldable t)
    (hm : m.cornersInRange = true) (hsize : m.vertexCount ≤ UInt32.size)
    (hapart : m.positions.toList.Pairwise (Apart t))
    (hproper : ∀ f ∈ m.faces, f.proper = true) : m.weld t = .ok (m, 0) := by
  obtain ⟨hkept, hremap⟩ := welding_of_apart hsize hapart
  have hmesh := mesh_of_numbering hkept hremap hm hproper
  have hmerged : m.vertexCount - (m.welding t).kept.size = 0 := by
    rw [hkept]
    exact Nat.sub_self m.vertexCount
  rw [weld_of_weldable ht hm, hmesh, hmerged]

/- Welding a mesh that was welded gives the same mesh, with nothing merged away. -/
theorem weld_idempotent (t : Tolerance α) (m : Mesh α) (hm : m.cornersInRange = true)
    (hsize : m.vertexCount ≤ UInt32.size) :
    ∃ out merged, m.weld t = .ok (out, merged) ∧ out.weld t = .ok (out, 0) := by
  by_cases ht : weldable t
  · obtain ⟨origins, htraced⟩ := traced_welding t hsize
    have hrange := (htraced.isWeld hm hsize).cornersInRange
    have hkept : (m.welding t).kept.size ≤ UInt32.size :=
      Nat.le_trans (size_kept_welding_le t m) hsize
    exact ⟨_, _, weld_of_weldable ht hm,
      weld_of_apart ht hrange hkept (kept_apart t hsize) fun f hf => proper_of_mem hf⟩
  · exact ⟨m, 0, if_neg ht, if_neg ht⟩

end Weld

theorem sliver_idempotent : sliver.cornersInRange = true ∧ sliver.vertexCount ≤ UInt32.size ∧
    (∃ out merged, sliver.weld ⟨0.5⟩ = .ok (out, merged) ∧ out.weld ⟨0.5⟩ = .ok (out, 0)) ∧
    ∃ out merged, sliver.weld ⟨0.0 / 0.0⟩ = .ok (out, merged) ∧
      out.weld ⟨0.0 / 0.0⟩ = .ok (out, 0) := by
  have hm : sliver.cornersInRange = true := by
    simp [cornersInRange, vertexCount, sliver, Face.within]
  have hsize : sliver.vertexCount ≤ UInt32.size := by decide
  exact ⟨hm, hsize, weld_idempotent _ sliver hm hsize, weld_idempotent _ sliver hm hsize⟩

end ProceduralShapes.Mesh
