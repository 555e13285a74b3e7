import ProceduralShapes.Proofs.Mesh.Concat

/-!
# The numbers of samples

A sampled surface is a grid of vertices, numbered row by row, and its corners are the numbers that
the stitching gives, none of them cut to 32 bits (`IsGrid`). In a mesh of several surfaces, every
one of them stands as it would be alone, behind those before it (`HasPieces`).
-/

namespace ProceduralShapes.Mesh

variable {α : Type}

/-! ### Grids -/

/- The mesh `m` has the vertices of a grid, row by row, and joins them as `s` says. -/
structure IsGrid (s : Stitch) (rows len : Nat) (sample : Nat → Nat → Point α) (m : Mesh α) :
    Prop where
  vertexCount_eq : m.vertexCount = rows * len
  position_eq : ∀ i < rows, ∀ j < len, m.positions[i * len + j]? = some (sample i j)
  triangleCount_eq : m.triangleCount = 2 * (s.rowPairs rows * s.columnPairs len)
  indices_eq : m.faces.toList.map Face.indices =
    (Grid.tiles s rows len).map (Triangle.map (Grid.number len) ∘ Grid.corners rows len)
  cornersInRange : m.cornersInRange = true

theorem isGrid_onGrid {s : Stitch} {rows len : Nat} (sample : Nat → Nat → Point α)
    (hrows : 0 < rows) (hsize : rows * len ≤ UInt32.size) :
    IsGrid s rows len sample (onGrid s rows len sample) := by
  have hindices : (onGrid s rows len sample).faces.toList.map Face.indices =
      (Grid.tiles s rows len).map (Triangle.map (Grid.number len) ∘ Grid.corners rows len) :=
    Grid.indices_strips hrows hsize
  have hcount := vertexCount_onGrid s rows len sample
  refine ⟨hcount, ?_, Grid.length_strips hrows hsize, hindices,
    cornersInRange_onGrid sample hrows hsize⟩
  intro i hi j hj
  have hinside : Grid.Inside rows len (i, j) := ⟨hi, hj⟩
  have hlt : i * len + j < (onGrid s rows len sample).positions.size :=
    Nat.lt_of_lt_of_eq (Grid.number_lt hinside) hcount.symm
  have hposition := (position_onGrid (Array.getElem?_eq_getElem hlt)).2
  have hplace : Grid.place len (i * len + j) = (i, j) := Grid.place_number hinside
  rw [Array.getElem?_eq_getElem hlt, hposition, hplace]

section Sampling
variable [Scalar α]

theorem columnPairs_stitch (topology : Topology) (sectors : Nat) :
    topology.stitch.columnPairs sectors = sectors := by
  cases topology with
  | openEnded => rfl
  | closed => rfl

theorem rowPairs_stitch {slices : Nat} (topology : Topology) (h : 0 < slices) :
    topology.stitch.rowPairs (topology.rowCount slices) = slices := by
  cases topology with
  | openEnded => rfl
  | closed => exact Nat.sub_add_cancel h

theorem isGrid_ofAngles [Trig α] {slices sectors : Nat} {topology : Topology}
    (hslices : 0 < slices) (hsectors : 0 < sectors)
    (hsize : topology.rowCount slices * sectors ≤ UInt32.size) (f : Position α) :
    IsGrid topology.stitch (topology.rowCount slices) sectors
      (fun i j => f (i * pi / slices) (j * tau / sectors))
      (ofAngles slices sectors topology f) := by
  have hsome : ¬(slices = 0 ∨ sectors = 0) := by omega
  rw [ofAngles, if_neg hsome]
  exact isGrid_onGrid _ (rowCount_pos hslices topology) hsize

theorem triangleCount_ofAngles [Trig α] {slices sectors : Nat} {topology : Topology}
    (hsize : tessellationSize slices sectors topology ≤ UInt32.size) (f : Position α) :
    (ofAngles slices sectors topology f).triangleCount = 2 * (slices * sectors) := by
  by_cases hnone : slices = 0 ∨ sectors = 0
  · have hzero : slices * sectors = 0 := Nat.mul_eq_zero.2 hnone
    rw [ofAngles, if_pos hnone, hzero]
    rfl
  · rw [tessellationSize, if_neg hnone] at hsize
    have hslices : 0 < slices := by omega
    have hgrid := isGrid_ofAngles hslices (by omega) hsize f
    rw [hgrid.triangleCount_eq, columnPairs_stitch, rowPairs_stitch topology hslices]

theorem isGrid_ofSquare {uSegments vSegments : Nat} (hu : 0 < uSegments) (hv : 0 < vSegments)
    (hsize : (uSegments + 1) * (vSegments + 1) ≤ UInt32.size) (f : Position α) :
    IsGrid .planar (uSegments + 1) (vSegments + 1) (fun i j => f (i / uSegments) (j / vSegments))
      (ofSquare uSegments vSegments f) := by
  have hsome : ¬(uSegments = 0 ∨ vSegments = 0) := by omega
  rw [ofSquare, if_neg hsome]
  exact isGrid_onGrid _ (Nat.succ_pos _) hsize

theorem triangleCount_ofSquare {uSegments vSegments : Nat}
    (hsize : unitGridSize uSegments vSegments ≤ UInt32.size) (f : Position α) :
    (ofSquare uSegments vSegments f).triangleCount = 2 * (uSegments * vSegments) := by
  by_cases hnone : uSegments = 0 ∨ vSegments = 0
  · have hzero : uSegments * vSegments = 0 := Nat.mul_eq_zero.2 hnone
    rw [ofSquare, if_pos hnone, hzero]
    rfl
  · rw [unitGridSize, if_neg hnone] at hsize
    exact (isGrid_ofSquare (by omega) (by omega) hsize f).triangleCount_eq

end Sampling

/-! ### Several surfaces in one mesh -/

/- The mesh `m` is made of what `f` makes of every item, each of `n` vertices and `t` faces. -/
structure HasPieces {β : Type} (f : β → Except Fault (Mesh α)) (bs : List β) (n t : Nat)
    (m : Mesh α) : Prop where
  vertexCount_eq : m.vertexCount = bs.length * n
  triangleCount_eq : m.triangleCount = bs.length * t
  cornersInRange : m.cornersInRange = true
  piece : ∀ k b, bs[k]? = some b → ∃ piece, f b = .ok piece ∧ piece.vertexCount = n ∧
    piece.triangleCount = t ∧ m.Contains piece (k * n) (k * t)

theorem total_map_take {β : Type} {size : Mesh α → Nat} {s : Nat} {g : β → Mesh α} {bs : List β}
    (h : ∀ b ∈ bs, size (g b) = s) {k : Nat} (hk : k ≤ bs.length) :
    total size ((bs.take k).map g) = k * s := by
  have hall : ∀ m ∈ (bs.take k).map g, size m = s :=
    List.forall_mem_map.2 fun b hb => h b (List.mem_of_mem_take hb)
  rw [total_eq_length_mul hall, List.length_map, List.length_take, Nat.min_eq_left hk]

/- The `k`-th of the meshes stands behind `k` others. -/
theorem hasPieces_joinedAll {β : Type} {n t : Nat} {f : β → Except Fault (Mesh α)}
    {g : β → Mesh α} {bs : List β} (hf : ∀ b ∈ bs, f b = .ok (g b))
    (hg : ∀ b ∈ bs, (g b).Whole n) (hfaces : ∀ b ∈ bs, (g b).triangleCount = t)
    (hsize : bs.length * n ≤ UInt32.size) :
    (bs.mapM f >>= concat) = .ok (joinedAll (bs.map g)) ∧
      HasPieces f bs n t (joinedAll (bs.map g)) := by
  obtain ⟨hconcat, hfit, hwhole⟩ := mapM_concat hf hg hsize
  have hvertices : ∀ b ∈ bs, (g b).vertexCount = n := fun b hb => (hg b hb).vertexCount_eq
  refine ⟨hconcat, hwhole.vertexCount_eq, ?_, hwhole.cornersInRange, ?_⟩
  · have hcount := total_map_take hfaces (Nat.le_refl bs.length)
    rwa [List.take_length, ← triangleCount_joinedAll] at hcount
  · intro k b hk
    obtain ⟨hlt, rfl⟩ := List.getElem?_eq_some_iff.1 hk
    have hmem : bs[k] ∈ bs := List.getElem_mem hlt
    have hsplit : bs.map g = (bs.take k).map g ++ g bs[k] :: (bs.drop (k + 1)).map g := by
      rw [← List.map_cons, ← List.map_append, List.getElem_cons_drop, List.take_append_drop]
    have hcontains := contains_joinedAll (hsplit ▸ hfit)
    rw [total_map_take hvertices (Nat.le_of_lt hlt), total_map_take hfaces (Nat.le_of_lt hlt),
      ← hsplit] at hcontains
    exact ⟨g bs[k], hf _ hmem, hvertices _ hmem, hfaces _ hmem, hcontains⟩

/-! ### Sampling -/

section Sampling
variable [Scalar α] [Trig α]

/- Surfaces and patches are sampled row by row, as long as the vertices have numbers of 32 bits. -/
theorem samples_numbered :
    (∀ (f : Position α) (slices sectors : Nat) (topology : Topology), 0 < slices → 0 < sectors →
      topology.rowCount slices * sectors ≤ UInt32.size →
      ∃ m, tessellate slices sectors f topology = .ok m ∧
        m.triangleCount = 2 * (slices * sectors) ∧
        IsGrid topology.stitch (topology.rowCount slices) sectors
          (fun i j => f (i * pi / slices) (j * tau / sectors)) m) ∧
    (∀ (f : Position α) (u v : Nat), 0 < u → 0 < v → (u + 1) * (v + 1) ≤ UInt32.size →
      ∃ m, unitGrid u v f = .ok m ∧ m.triangleCount = 2 * (u * v) ∧
        IsGrid .planar (u + 1) (v + 1) (fun i j => f (i / u) (j / v)) m) ∧
    (∀ (f : Position α) (n : Nat) (topology : Topology),
      tessellate 0 n f topology = .ok empty ∧ tessellate n 0 f topology = .ok empty ∧
      unitGrid 0 n f = .ok empty ∧ unitGrid n 0 f = .ok empty) ∧
    (∀ (fs : List (Position α)) (slices sectors : Nat),
      fs.length * tessellationSize slices sectors .openEnded ≤ UInt32.size →
      ∃ m, tessellateAll slices sectors fs = .ok m ∧
        HasPieces (fun f => tessellate slices sectors f .openEnded) fs
          (tessellationSize slices sectors .openEnded) (2 * (slices * sectors)) m) ∧
    ∀ (fs : List (Position α)) (u v : Nat), fs.length * unitGridSize u v ≤ UInt32.size →
      ∃ m, unitGrids u v fs = .ok m ∧
        HasPieces (unitGrid u v) fs (unitGridSize u v) (2 * (u * v)) m := by
  refine ⟨?_, ?_, ?_, ?_, ?_⟩
  · intro f slices sectors topology hslices hsectors hsize
    have hsome : ¬(slices = 0 ∨ sectors = 0) := by omega
    have htotal : tessellationSize slices sectors topology ≤ UInt32.size := by
      rwa [tessellationSize, if_neg hsome]
    exact ⟨_, tessellate_eq htotal f, triangleCount_ofAngles htotal f,
      isGrid_ofAngles hslices hsectors hsize f⟩
  · intro f u v hu hv hsize
    have hsome : ¬(u = 0 ∨ v = 0) := by omega
    have htotal : unitGridSize u v ≤ UInt32.size := by rwa [unitGridSize, if_neg hsome]
    exact ⟨_, unitGrid_eq htotal f, triangleCount_ofSquare htotal f,
      isGrid_ofSquare hu hv hsize f⟩
  · intro f n topology
    exact ⟨if_pos (.inl rfl), if_pos (.inr rfl), if_pos (.inl rfl), if_pos (.inr rfl)⟩
  · intro fs slices sectors hsize
    have hone : ∀ f ∈ fs, tessellationSize slices sectors .openEnded ≤ UInt32.size :=
      fun _ hf => le_of_length_mul_le hsize hf
    exact ⟨_, hasPieces_joinedAll (fun f hf => tessellate_eq (hone f hf) f)
      (fun f hf => whole_ofAngles (hone f hf) f)
      (fun f hf => triangleCount_ofAngles (hone f hf) f) hsize⟩
  · intro fs u v hsize
    have hone : ∀ f ∈ fs, unitGridSize u v ≤ UInt32.size :=
      fun _ hf => le_of_length_mul_le hsize hf
    exact ⟨_, hasPieces_joinedAll (fun f hf => unitGrid_eq (hone f hf) f)
      (fun f hf => whole_ofSquare (hone f hf) f)
      (fun f hf => triangleCount_ofSquare (hone f hf) f) hsize⟩

end Sampling

/- The unit sphere with as many samples as there are corner numbers, and three small surfaces in one
mesh, of which the second stands behind sixteen vertices and twenty-four faces. -/
theorem sphere_numbered :
    (Topology.rowCount .openEnded 65535 * 65536 ≤ UInt32.size ∧
      ∃ m, tessellate 65535 65536 (Surface.spherePosition : Position Float) .openEnded = .ok m ∧
        m.vertexCount = 65536 * 65536 ∧ m.triangleCount = 2 * (65535 * 65536) ∧
        m.positions[65535 * 65536 + 1]? = some (Surface.spherePosition
          (Nat.cast 65535 * pi / Nat.cast 65535) (Nat.cast 1 * tau / Nat.cast 65536)) ∧
        m.cornersInRange = true) ∧
    ((2 + 1) * (1 + 1) ≤ UInt32.size ∧
      ∃ m, unitGrid 2 1 (Surface.spherePosition : Position Float) = .ok m ∧ m.vertexCount = 6 ∧
        m.triangleCount = 4) ∧
    ([Surface.sphere, .torus, .mobius].length * tessellationSize 3 4 .openEnded ≤ UInt32.size ∧
      ∃ m piece, tessellateAll 3 4
          ([Surface.sphere, .torus, .mobius].map (Surface.position : Surface → Position Float)) =
          .ok m ∧ m.vertexCount = 48 ∧
        tessellate 3 4 (Surface.position .torus : Position Float) .openEnded = .ok piece ∧
        m.Contains piece 16 24) ∧
    (2 * unitGridSize 2 1 ≤ UInt32.size ∧
      ∃ m piece,
        unitGrids 2 1 [Surface.position .sphere, (Surface.position .torus : Position Float)] =
          .ok m ∧ unitGrid 2 1 (Surface.position .torus) = .ok piece ∧ m.Contains piece 6 4) := by
  obtain ⟨hangles, hsquare, -, hsurfaces, hpatches⟩ := samples_numbered (α := Float)
  have hfull : Topology.rowCount .openEnded 65535 * 65536 ≤ UInt32.size := by decide
  obtain ⟨m, hm, hfaces, hgrid⟩ := hangles Surface.spherePosition 65535 65536 .openEnded
    (by decide) (by decide) hfull
  obtain ⟨l, hl, hlfaces, hlgrid⟩ := hsquare Surface.spherePosition 2 1
    (by decide) (by decide) (by decide)
  obtain ⟨s, hs, hspieces⟩ := hsurfaces ([Surface.sphere, .torus, .mobius].map Surface.position) 3 4
    (by decide)
  obtain ⟨piece, hpiece, -, -, hcontains⟩ := hspieces.piece 1 (Surface.position .torus) rfl
  obtain ⟨p, hp, hppieces⟩ := hpatches [Surface.position .sphere, Surface.position .torus] 2 1
    (by decide)
  obtain ⟨patch, hpatch, -, -, hpcontains⟩ := hppieces.piece 1 (Surface.position .torus) rfl
  exact ⟨⟨hfull, m, hm, hgrid.vertexCount_eq, hfaces,
      hgrid.position_eq 65535 (by decide) 1 (by decide), hgrid.cornersInRange⟩,
    ⟨by decide, l, hl, hlgrid.vertexCount_eq, hlfaces⟩,
    ⟨by decide, s, piece, hs, hspieces.vertexCount_eq, hpiece, hcontains⟩,
    by decide, p, patch, hp, hpatch, hpcontains⟩

end ProceduralShapes.Mesh
