import ProceduralShapes.Proofs.Fallible
import ProceduralShapes.Proofs.Mesh.Join

/-!
# Meshes that are whole

The corners of a whole mesh are vertices of it. Grids are whole, and wholeness survives joining
meshes, as long as the vertices of all of them together have numbers of 32 bits, and welding. So a
tessellated surface and a mesh of patches are whole, and of a size that is known beforehand.
-/

namespace ProceduralShapes

open Fallible

variable {α β : Type}

namespace Mesh

/- A mesh of `n` vertices, with no corners but these. -/
structure Whole (n : Nat) (m : Mesh α) : Prop where
  vertexCount_eq : m.vertexCount = n
  cornersInRange : m.cornersInRange = true

theorem whole_empty : (empty : Mesh α).Whole 0 := ⟨rfl, cornersInRange_empty⟩

/-! ### Joining -/

theorem fit_of_whole {n : Nat} {ms : List (Mesh α)} (hms : ∀ m ∈ ms, m.Whole n)
    (hsize : ms.length * n ≤ UInt32.size) : Fit ms where
  cornersInRange m hm := (hms m hm).cornersInRange
  size_le := by rwa [total_eq_length_mul fun m hm => (hms m hm).vertexCount_eq]

theorem whole_joinedAll {n : Nat} {ms : List (Mesh α)} (hms : ∀ m ∈ ms, m.Whole n)
    (hsize : ms.length * n ≤ UInt32.size) : (joinedAll ms).Whole (ms.length * n) where
  vertexCount_eq := by
    rw [vertexCount_joinedAll, total_eq_length_mul fun m hm => (hms m hm).vertexCount_eq]
  cornersInRange := (fit_of_whole hms hsize).cornersInRange_joinedAll

theorem le_of_length_mul_le {n k : Nat} {bs : List β} (h : bs.length * n ≤ k) {b : β}
    (hb : b ∈ bs) : n ≤ k :=
  Nat.le_trans (Nat.le_mul_of_pos_left n (List.length_pos_of_mem hb)) h

/- Meshes of `n` vertices, one for every item, joined in one. -/
theorem mapM_concat {n : Nat} {f : β → Except Fault (Mesh α)} {g : β → Mesh α} {bs : List β}
    (hf : ∀ b ∈ bs, f b = .ok (g b)) (hg : ∀ b ∈ bs, (g b).Whole n)
    (hsize : bs.length * n ≤ UInt32.size) :
    (bs.mapM f >>= concat) = .ok (joinedAll (bs.map g)) ∧ Fit (bs.map g) ∧
      (joinedAll (bs.map g)).Whole (bs.length * n) := by
  have hwhole : ∀ m ∈ bs.map g, m.Whole n := List.forall_mem_map.2 hg
  rw [← List.length_map g] at hsize ⊢
  have hfit := fit_of_whole hwhole hsize
  refine ⟨?_, hfit, whole_joinedAll hwhole hsize⟩
  rw [mapM_of_forall_ok hf]
  exact hfit.concat

/-! ### Welding -/

section Weld
variable [Scalar α] [LE α] [DecidableLE α] [LT α] [DecidableLT α] [Finiteness α] [CellIndex α]

/- A whole mesh can be welded, and stays whole. -/
theorem Whole.weld {n : Nat} {m : Mesh α} (h : m.Whole n) (hsize : n ≤ UInt32.size)
    (t : Tolerance α) :
    ∃ out merged, m.weld t = .ok (out, merged) ∧ out.cornersInRange = true := by
  by_cases ht : weldable t
  · rw [← h.vertexCount_eq] at hsize
    obtain ⟨origins, htraced⟩ := traced_welding t hsize
    have hweld := htraced.isWeld h.cornersInRange hsize
    exact ⟨_, _, weld_of_weldable ht h.cornersInRange, hweld.cornersInRange⟩
  · exact ⟨m, 0, if_neg ht, h.cornersInRange⟩

end Weld

/-! ### Tessellated meshes -/

theorem whole_onGrid (s : Stitch) {rows len : Nat} (sample : Nat → Nat → Point α)
    (hrows : 0 < rows) (hsize : rows * len ≤ UInt32.size) :
    (onGrid s rows len sample).Whole (rows * len) :=
  ⟨vertexCount_onGrid s rows len sample, cornersInRange_onGrid sample hrows hsize⟩

section Tessellation
variable [Scalar α]

theorem rowCount_pos {slices : Nat} (h : 0 < slices) (topology : Topology) :
    0 < topology.rowCount slices := by
  cases topology with
  | openEnded => exact Nat.succ_pos slices
  | closed => exact h

/- The mesh of a surface over the grid of angles. -/
def ofAngles [Trig α] (slices sectors : Nat) (topology : Topology) (f : Position α) : Mesh α :=
  if slices = 0 ∨ sectors = 0 then empty
  else onGrid topology.stitch (topology.rowCount slices) sectors fun i j =>
    f (i * pi / slices) (j * tau / sectors)

/- The number of vertices of a surface that is sampled in slices and sectors. -/
def tessellationSize (slices sectors : Nat) (topology : Topology) : Nat :=
  if slices = 0 ∨ sectors = 0 then 0 else topology.rowCount slices * sectors

theorem tessellate_eq [Trig α] {slices sectors : Nat} {topology : Topology}
    (hsize : tessellationSize slices sectors topology ≤ UInt32.size) (f : Position α) :
    tessellate slices sectors f topology = .ok (ofAngles slices sectors topology f) := by
  unfold tessellationSize at hsize
  unfold tessellate ofAngles
  split
  · rfl
  · rename_i hsome
    rw [if_neg hsome] at hsize
    exact ofGrid_eq_ok _ (rowCount_pos (by omega) topology) (by omega) hsize

theorem whole_ofAngles [Trig α] {slices sectors : Nat} {topology : Topology}
    (hsize : tessellationSize slices sectors topology ≤ UInt32.size) (f : Position α) :
    (ofAngles slices sectors topology f).Whole (tessellationSize slices sectors topology) := by
  unfold tessellationSize at hsize ⊢
  unfold ofAngles
  split
  · exact whole_empty
  · rename_i hsome
    rw [if_neg hsome] at hsize
    exact whole_onGrid _ _ (rowCount_pos (by omega) topology) hsize

theorem exists_tessellate [Trig α] (slices sectors : Nat) (f : Position α) (topology : Topology)
    (hsize : tessellationSize slices sectors topology ≤ UInt32.size) :
    ∃ m, tessellate slices sectors f topology = .ok m ∧
      m.Whole (tessellationSize slices sectors topology) :=
  ⟨_, tessellate_eq hsize f, whole_ofAngles hsize f⟩

/- The mesh of a patch over the grid of the unit square. -/
def ofSquare (uSegments vSegments : Nat) (f : Position α) : Mesh α :=
  if uSegments = 0 ∨ vSegments = 0 then empty
  else onGrid .planar (uSegments + 1) (vSegments + 1) fun i j => f (i / uSegments) (j / vSegments)

/- The number of vertices of a patch that is sampled in segments. -/
def unitGridSize (uSegments vSegments : Nat) : Nat :=
  if uSegments = 0 ∨ vSegments = 0 then 0 else (uSegments + 1) * (vSegments + 1)

theorem unitGrid_eq {uSegments vSegments : Nat}
    (hsize : unitGridSize uSegments vSegments ≤ UInt32.size) (f : Position α) :
    unitGrid uSegments vSegments f = .ok (ofSquare uSegments vSegments f) := by
  unfold unitGridSize at hsize
  unfold unitGrid ofSquare
  split
  · rfl
  · rename_i hsome
    rw [if_neg hsome] at hsize
    exact ofGrid_eq_ok _ (Nat.succ_pos _) (Nat.succ_pos _) hsize

theorem whole_ofSquare {uSegments vSegments : Nat}
    (hsize : unitGridSize uSegments vSegments ≤ UInt32.size) (f : Position α) :
    (ofSquare uSegments vSegments f).Whole (unitGridSize uSegments vSegments) := by
  unfold unitGridSize at hsize ⊢
  unfold ofSquare
  split
  · exact whole_empty
  · rename_i hsome
    rw [if_neg hsome] at hsize
    exact whole_onGrid _ _ (Nat.succ_pos _) hsize

theorem exists_unitGrids (uSegments vSegments : Nat) (fs : List (Position α))
    (hsize : fs.length * unitGridSize uSegments vSegments ≤ UInt32.size) :
    ∃ m, unitGrids uSegments vSegments fs = .ok m ∧
      m.Whole (fs.length * unitGridSize uSegments vSegments) := by
  have hone : ∀ f ∈ fs, unitGridSize uSegments vSegments ≤ UInt32.size :=
    fun _ hf => le_of_length_mul_le hsize hf
  obtain ⟨hconcat, -, hwhole⟩ := mapM_concat (fun f hf => unitGrid_eq (hone f hf) f)
    (fun f hf => whole_ofSquare (hone f hf) f) hsize
  exact ⟨_, hconcat, hwhole⟩

end Tessellation

end Mesh

end ProceduralShapes
