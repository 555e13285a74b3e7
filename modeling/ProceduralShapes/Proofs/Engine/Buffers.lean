import ProceduralShapes.Engine.Basic
import ProceduralShapes.Proofs.Mesh.Concat

/-!
# The buffers that an engine hands out

Regrouped by threes, the buffers made of a mesh are its positions and its faces again. An engine
hands out buffers of the tessellated mesh, or of its weld, and both are whole, so every corner that
is handed out is the number of a vertex that is handed out. None of this rests on a law of
arithmetic.
-/

namespace ProceduralShapes

open Decimal (Numeral)

variable {α β γ : Type}

/-! ### Threes -/

/- The list by threes, without what is left over at the end. -/
def byThrees (f : β → β → β → γ) : List β → List γ
  | a :: b :: c :: rest => f a b c :: byThrees f rest
  | _ => []

theorem byThrees_flatMap {f : β → β → β → γ} {a b c : γ → β} (h : ∀ x, f (a x) (b x) (c x) = x)
    (xs : List γ) : byThrees f (xs.flatMap fun x => [a x, b x, c x]) = xs := by
  induction xs with
  | nil => rfl
  | cons x xs ih => exact List.cons_eq_cons.2 ⟨h x, ih⟩

theorem length_flatMap_threes (a b c : γ → β) (xs : List γ) :
    (xs.flatMap fun x => [a x, b x, c x]).length = 3 * xs.length := by
  induction xs with
  | nil => rfl
  | cons x xs ih =>
    rw [List.flatMap_cons, List.length_append, ih, List.length_cons]
    show 3 + 3 * xs.length = 3 * (xs.length + 1)
    omega

namespace Mesh

theorem toList_flatPositions (m : Mesh α) :
    m.flatPositions.toList = m.positions.toList.flatMap fun p => [p.x, p.y, p.z] := by
  simp only [flatPositions, Array.toList_flatMap]

theorem toList_flatCorners (m : Mesh α) :
    m.flatCorners.toList = m.faces.toList.flatMap fun f => [f.a, f.b, f.c] := by
  simp only [flatCorners, Array.toList_flatMap]

end Mesh

namespace Engine

/-! ### Buffers -/

namespace Buffers

/- The mesh that is found in buffers by taking coordinates and corners by threes. -/
def mesh (b : Buffers α) : Mesh α :=
  ⟨(byThrees Point.mk b.positions.toList).toArray, (byThrees Face.mk b.corners.toList).toArray⟩

structure WellFormed (b : Buffers α) : Prop where
  positions_size : b.positions.size = 3 * b.vertexCount
  corners_size : b.corners.size = 3 * b.triangleCount
  corner_lt : ∀ i ∈ b.corners, i.toNat < b.vertexCount

theorem mesh_ofMesh (m : Mesh α) : (ofMesh m).mesh = m := by
  simp only [mesh, ofMesh, Mesh.toList_flatPositions, Mesh.toList_flatCorners]
  rw [byThrees_flatMap fun _ => rfl, byThrees_flatMap fun _ => rfl]

theorem wellFormed_ofMesh {m : Mesh α} (h : m.cornersInRange = true) : (ofMesh m).WellFormed where
  positions_size := by
    rw [← Array.length_toList]
    exact (congrArg _ m.toList_flatPositions).trans (length_flatMap_threes _ _ _ _)
  corners_size := by
    rw [← Array.length_toList]
    exact (congrArg _ m.toList_flatCorners).trans (length_flatMap_threes _ _ _ _)
  corner_lt := by
    intro i hi
    have hmem : i ∈ m.flatCorners.toList := Array.mem_toList_iff.2 hi
    rw [Mesh.toList_flatCorners] at hmem
    obtain ⟨f, hf, hcorner⟩ := List.mem_flatMap.1 hmem
    have hwithin := Mesh.cornersInRange_iff.1 h f (Array.mem_toList_iff.1 hf)
    obtain ⟨ha, hb, hc⟩ := Face.within_iff.1 hwithin
    simp only [List.mem_cons, List.not_mem_nil, or_false] at hcorner
    rcases hcorner with rfl | rfl | rfl
    · exact ha
    · exact hb
    · exact hc

end Buffers

/-! ### Handing out -/

section Meshes
variable [Scalar α] [LE α] [DecidableLE α] [LT α] [DecidableLT α] [Finiteness α] [CellIndex α]

/- The mesh that this engine hands out for a mesh: the weld of it, or the mesh as it is. -/
def Finishes (e : Engine α) (m out : Mesh α) : Prop :=
  if e.weld then ∃ merged, m.weld .weld = .ok (out, merged) else out = m

/- The reply holds well-formed buffers, those of the mesh as this engine finishes it. -/
def HandsOut (e : Engine α) (reply : Reply (Buffers α)) (m : Mesh α) : Prop :=
  ∃ b out, reply.result = .ok b ∧ e.Finishes m out ∧ b.WellFormed ∧ b.mesh = out

theorem exists_finish (e : Engine α) {n : Nat} {m : Mesh α} (h : m.Whole n)
    (hsize : n ≤ UInt32.size) :
    ∃ out, (e.finish m).1 = .ok out ∧ e.Finishes m out ∧ out.cornersInRange = true := by
  unfold finish Finishes
  split
  · obtain ⟨out, merged, hweld, hrange⟩ := h.weld hsize .weld
    rw [hweld]
    exact ⟨out, rfl, ⟨merged, rfl⟩, hrange⟩
  · exact ⟨m, rfl, rfl, h.cornersInRange⟩

theorem handsOut_of_whole (e : Engine α) {n : Nat} {m : Mesh α} (h : m.Whole n)
    (hsize : n ≤ UInt32.size) : e.HandsOut (e.handOut (.ok m)) m := by
  obtain ⟨out, hfinish, hfinishes, hrange⟩ := e.exists_finish h hsize
  refine ⟨.ofMesh out, out, ?_, hfinishes, Buffers.wellFormed_ofMesh hrange,
    Buffers.mesh_ofMesh out⟩
  simp only [handOut, hfinish]
  rfl

/- The mesh of the patches that an engine keeps. -/
theorem meshPatches_handsOut (e : Engine α) (u v : Nat)
    (hsize : e.patches.size * Mesh.unitGridSize u v ≤ UInt32.size) :
    ∃ m, Mesh.unitGrids u v (e.patches.toList.map Patch.pointAt) = .ok m ∧
      m.vertexCount = e.patches.size * Mesh.unitGridSize u v ∧
      e.HandsOut (e.meshPatches u v) m := by
  have hlength : (e.patches.toList.map Patch.pointAt).length = e.patches.size := by
    rw [List.length_map, Array.length_toList]
  rw [← hlength] at hsize ⊢
  obtain ⟨m, hm, hwhole⟩ := Mesh.exists_unitGrids u v _ hsize
  refine ⟨m, hm, hwhole.vertexCount_eq, ?_⟩
  rw [meshPatches, hm]
  exact e.handsOut_of_whole hwhole hsize

variable [Trig α] [SquareRoot α] [Numeral α]

/- Every mesh that an engine hands out is well formed, whether it is welded or not, as long as there
are at most `2 ^ 32` vertices before welding. -/
theorem meshes_wellFormed (e : Engine α) :
    (∀ name surface slices sectors topology, Surface.named? name = some surface →
      Mesh.tessellationSize slices sectors topology ≤ UInt32.size →
      ∃ m, Mesh.tessellate slices sectors (surface.position : Position α) topology = .ok m ∧
        m.vertexCount = Mesh.tessellationSize slices sectors topology ∧
        e.HandsOut (e.tessellate name slices sectors topology) m) ∧
    (∀ u v, e.patches.size * Mesh.unitGridSize u v ≤ UInt32.size →
      ∃ m, Mesh.unitGrids u v (e.patches.toList.map Patch.pointAt) = .ok m ∧
        m.vertexCount = e.patches.size * Mesh.unitGridSize u v ∧
        e.HandsOut (e.meshPatches u v) m) ∧
    ∀ text u v patches, (Rib.read text : Rib.Reading α).patches = .ok patches →
      patches.size * Mesh.unitGridSize u v ≤ UInt32.size →
      ∃ m, Mesh.unitGrids u v (patches.toList.map Patch.pointAt) = .ok m ∧
        m.vertexCount = patches.size * Mesh.unitGridSize u v ∧
        e.HandsOut (e.loadPatches text u v).2 m := by
  refine ⟨?_, e.meshPatches_handsOut, ?_⟩
  · intro name surface slices sectors topology hname hsize
    obtain ⟨m, hm, hwhole⟩ :=
      Mesh.exists_tessellate slices sectors (surface.position : Position α) topology hsize
    refine ⟨m, hm, hwhole.vertexCount_eq, ?_⟩
    simp only [tessellate, hname, hm]
    exact e.handsOut_of_whole hwhole hsize
  · intro text u v patches hpatches hsize
    obtain ⟨m, hm, hcount, hout⟩ := meshPatches_handsOut { e with patches } u v hsize
    refine ⟨m, hm, hcount, ?_⟩
    simp only [loadPatches, hpatches]
    exact hout

end Meshes

/- A file with one patch, flat over a square. -/
def squareFile : String :=
  "Patch \"bicubic\" \"P\" [0 0 0 0 1 0 0 2 0 0 3 0 1 0 0 1 1 0 1 2 0 1 3 0\n" ++
    "2 0 0 2 1 0 2 2 0 2 3 0 3 0 0 3 1 0 3 2 0 3 3 0]\n"

theorem squareFile_read : ∃ patches : Array (Patch Float), patches.size = 1 ∧
    (Rib.read squareFile : Rib.Reading Float).patches = .ok patches := by
  obtain ⟨hnone, hsize⟩ : (Rib.read squareFile : Rib.Reading Float).error? = none ∧
      (Rib.read squareFile : Rib.Reading Float).state.patches.size = 1 := by
    decide +kernel
  exact ⟨_, hsize, by rw [Rib.Reading.patches, hnone]⟩

/- A torus, a patch that is kept and a patch that is read, handed out by an engine that welds. -/
theorem square_wellFormed : ∃ e : Engine Float, e.weld = true ∧
    (Rib.read squareFile : Rib.Reading Float).patches = .ok e.patches ∧
    Surface.named? "Torus" = some .torus ∧
    Mesh.tessellationSize 40 10 .closed ≤ UInt32.size ∧
    e.patches.size * Mesh.unitGridSize 2 3 ≤ UInt32.size ∧
    (∃ m, m.vertexCount = 400 ∧ e.HandsOut (e.tessellate "Torus" 40 10 .closed) m) ∧
    (∃ m, m.vertexCount = 12 ∧ e.HandsOut (e.meshPatches 2 3) m) ∧
    ∃ m, m.vertexCount = 12 ∧ e.HandsOut (e.loadPatches squareFile 2 3).2 m := by
  obtain ⟨patches, hcount, hread⟩ := squareFile_read
  have hname : Surface.named? "Torus" = some .torus := by decide +kernel
  have htorus : Mesh.tessellationSize 40 10 .closed ≤ UInt32.size := by decide
  have htwelve : patches.size * Mesh.unitGridSize 2 3 = 12 := by
    rw [hcount]
    rfl
  have hpatches : patches.size * Mesh.unitGridSize 2 3 ≤ UInt32.size := by
    rw [htwelve]
    decide
  obtain ⟨hsurface, hkept, hloaded⟩ := meshes_wellFormed (⟨none, patches, true⟩ : Engine Float)
  obtain ⟨m, -, hm, hmout⟩ := hsurface "Torus" .torus 40 10 .closed hname htorus
  obtain ⟨n, -, hn, hnout⟩ := hkept 2 3 hpatches
  obtain ⟨l, -, hl, hlout⟩ := hloaded squareFile 2 3 patches hread hpatches
  exact ⟨⟨none, patches, true⟩, rfl, hread, hname, htorus, hpatches, ⟨m, hm, hmout⟩,
    ⟨n, hn.trans htwelve, hnout⟩, l, hl.trans htwelve, hlout⟩

end Engine

end ProceduralShapes
