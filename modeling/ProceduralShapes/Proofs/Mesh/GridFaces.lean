import Mathlib.Data.List.Nodup
import Mathlib.Data.List.ProdSigma
import ProceduralShapes.Mesh.Grid
import ProceduralShapes.Proofs.Mesh.Weld
import ProceduralShapes.Surface.Tessellation

/-!
# The faces of a grid

The faces of a stitched grid are the two halves of its quads, quad by quad: the corners of a half
are places of the grid, numbered row by row (`indices_strips`). Rows and columns run round, the
row after the last being the first, so the strip that closes a grid is a strip like any other.
A grid of at most `2 ^ 32` vertices has numbers for all of them and fits its buffers.
-/

namespace ProceduralShapes

variable {α β : Type}

/-! ### Triangles of any corners -/

abbrev Triangle (α : Type) := α × α × α

namespace Triangle

def map (g : α → β) (t : Triangle α) : Triangle β := (g t.1, g t.2.1, g t.2.2)

end Triangle

theorem imageIndices_eq_map (image : Nat → Nat) :
    Mesh.imageIndices image = Triangle.map image ∘ Face.indices := rfl

theorem indices_ofIndices {a b c : Nat} (ha : a < UInt32.size) (hb : b < UInt32.size)
    (hc : c < UInt32.size) : (Face.ofIndices a b c).indices = (a, b, c) := by
  simp only [Face.ofIndices, Face.indices, Nat.toUInt32_eq, UInt32.toNat_ofNat']
  refine Prod.ext ?_ (Prod.ext ?_ ?_)
  · exact Nat.mod_eq_of_lt ha
  · exact Nat.mod_eq_of_lt hb
  · exact Nat.mod_eq_of_lt hc

namespace Grid

/-! ### Places -/

/- A vertex of a grid, by its row and its column. -/
abbrev Place := Nat × Nat

/- The number of a place in a grid with rows of `len` vertices. -/
def number (len : Nat) (p : Place) : Nat := p.1 * len + p.2

/- The place with a number. -/
def place (len k : Nat) : Place := (k / len, k % len)

def Inside (rows len : Nat) (p : Place) : Prop := p.1 < rows ∧ p.2 < len

theorem number_lt {rows len : Nat} {p : Place} (h : Inside rows len p) :
    number len p < rows * len := by
  have hrow : (p.1 + 1) * len ≤ rows * len := Nat.mul_le_mul_right len h.1
  have hcolumn := h.2
  rw [Nat.add_mul, Nat.one_mul] at hrow
  rw [number]
  omega

theorem place_number {rows len : Nat} {p : Place} (h : Inside rows len p) :
    place len (number len p) = p := by
  have hlen : 0 < len := Nat.lt_of_le_of_lt (Nat.zero_le _) h.2
  have hcomm : p.1 * len + p.2 = p.2 + len * p.1 := by rw [Nat.mul_comm, Nat.add_comm]
  rw [place, number, hcomm, Nat.add_mul_div_left _ _ hlen, Nat.add_mul_mod_self_left,
    Nat.div_eq_of_lt h.2, Nat.mod_eq_of_lt h.2, Nat.zero_add]

theorem number_inj {rows len : Nat} {p q : Place} (hp : Inside rows len p) (hq : Inside rows len q)
    (h : number len p = number len q) : p = q := by
  rw [← place_number hp, h, place_number hq]

theorem number_place (len k : Nat) : number len (place len k) = k := by
  rw [number, place, Nat.mul_comm]
  exact Nat.div_add_mod k len

theorem inside_place {rows len k : Nat} (h : k < rows * len) : Inside rows len (place len k) := by
  have hlen : 0 < len := Nat.pos_of_mul_pos_left (Nat.lt_of_le_of_lt (Nat.zero_le k) h)
  exact ⟨Nat.div_lt_of_lt_mul (by rwa [Nat.mul_comm]), Nat.mod_lt k hlen⟩

/-! ### Tiles -/

/- The two halves of a quad, in the order of its faces. -/
inductive Half
  | first
  | second
deriving DecidableEq

/- Half of the quad between a place, the column after it and the row after it. -/
abbrev Tile := Place × Half

/- The corners of a tile, in the order of its face. -/
def corners (rows len : Nat) : Tile → Triangle Place
  | ((i, j), .first) => ((i, j), (i, (j + 1) % len), ((i + 1) % rows, j))
  | ((i, j), .second) => ((i, (j + 1) % len), ((i + 1) % rows, (j + 1) % len), ((i + 1) % rows, j))

def tiles (s : Stitch) (rows len : Nat) : List Tile :=
  (List.range (s.rowPairs rows) ×ˢ List.range (s.columnPairs len)) ×ˢ [.first, .second]

theorem mem_tiles {s : Stitch} {rows len i j : Nat} {half : Half} :
    ((i, j), half) ∈ tiles s rows len ↔ i < s.rowPairs rows ∧ j < s.columnPairs len := by
  simp only [tiles, List.mem_product, List.mem_range, List.mem_cons, List.not_mem_nil, or_false]
  cases half with
  | first => simp
  | second => simp

theorem nodup_tiles (s : Stitch) (rows len : Nat) : (tiles s rows len).Nodup := by
  have hhalves : [Half.first, Half.second].Nodup := by decide
  exact ((List.nodup_range).product List.nodup_range).product hhalves

theorem length_tiles (s : Stitch) (rows len : Nat) :
    (tiles s rows len).length = 2 * (s.rowPairs rows * s.columnPairs len) := by
  rw [tiles, List.length_product, List.length_product, List.length_range, List.length_range,
    Nat.mul_comm]
  rfl

theorem rowPairs_le {s : Stitch} {rows : Nat} (h : 0 < rows) : s.rowPairs rows ≤ rows := by
  unfold Stitch.rowPairs
  split
  · omega
  · omega

theorem columnPairs_le (s : Stitch) (len : Nat) : s.columnPairs len ≤ len := by
  unfold Stitch.columnPairs
  split
  · exact Nat.le_refl len
  · exact Nat.sub_le len 1

/- The corners of the tiles are places of the grid. -/
theorem inside_corners {s : Stitch} {rows len : Nat} {t : Tile} (ht : t ∈ tiles s rows len)
    (hrows : 0 < rows) :
    Inside rows len (corners rows len t).1 ∧ Inside rows len (corners rows len t).2.1 ∧
      Inside rows len (corners rows len t).2.2 := by
  obtain ⟨⟨i, j⟩, half⟩ := t
  obtain ⟨hi, hj⟩ := mem_tiles.1 ht
  have hrow : i < rows := Nat.lt_of_lt_of_le hi (rowPairs_le hrows)
  have hcolumn : j < len := Nat.lt_of_lt_of_le hj (columnPairs_le s len)
  have hbelow : (i + 1) % rows < rows := Nat.mod_lt _ hrows
  have hnext : (j + 1) % len < len := Nat.mod_lt _ (Nat.lt_of_le_of_lt (Nat.zero_le j) hcolumn)
  cases half with
  | first => exact ⟨⟨hrow, hcolumn⟩, ⟨hrow, hnext⟩, ⟨hbelow, hcolumn⟩⟩
  | second => exact ⟨⟨hrow, hnext⟩, ⟨hbelow, hnext⟩, ⟨hbelow, hcolumn⟩⟩

/-! ### Faces -/

/- The strip that closes a grid goes on from the last row to the first as the others do. -/
theorem strips_eq_flatMap (s : Stitch) {rows : Nat} (len : Nat) (hrows : 0 < rows) :
    strips s rows len =
      (List.range (s.rowPairs rows)).flatMap fun i =>
        strip s len (i * len) ((i + 1) % rows * len) := by
  have hopen : (List.range (rows - 1)).flatMap (fun i => strip s len (i * len) ((i + 1) * len)) =
      (List.range (rows - 1)).flatMap fun i =>
        strip s len (i * len) ((i + 1) % rows * len) := by
    refine List.flatMap_congr fun i hi => ?_
    have hlt := List.mem_range.1 hi
    rw [Nat.mod_eq_of_lt (by omega)]
  rw [strips, hopen, Stitch.rowPairs]
  split
  · have hlast : rows - 1 + 1 = rows := Nat.sub_add_cancel hrows
    rw [List.range_succ, List.flatMap_append, List.flatMap_singleton, hlast, Nat.mod_self,
      Nat.zero_mul]
  · rw [List.append_nil, Nat.add_zero]

theorem indices_quad {rows len i j : Nat} (hrow : i < rows) (hcolumn : j < len)
    (hsize : rows * len ≤ UInt32.size) :
    (quad len (i * len) ((i + 1) % rows * len) j).map Face.indices =
      [Half.first, Half.second].map fun half =>
        Triangle.map (number len) (corners rows len ((i, j), half)) := by
  have hrows : 0 < rows := Nat.lt_of_le_of_lt (Nat.zero_le i) hrow
  have hbelow : (i + 1) % rows < rows := Nat.mod_lt _ hrows
  have hnext : (j + 1) % len < len := Nat.mod_lt _ (Nat.lt_of_le_of_lt (Nat.zero_le j) hcolumn)
  have hword : ∀ p : Place, Inside rows len p → number len p < UInt32.size :=
    fun p hp => Nat.lt_of_lt_of_le (number_lt hp) hsize
  have hfirst := indices_ofIndices (hword (i, j) ⟨hrow, hcolumn⟩)
    (hword (i, (j + 1) % len) ⟨hrow, hnext⟩) (hword ((i + 1) % rows, j) ⟨hbelow, hcolumn⟩)
  have hsecond := indices_ofIndices (hword (i, (j + 1) % len) ⟨hrow, hnext⟩)
    (hword ((i + 1) % rows, (j + 1) % len) ⟨hbelow, hnext⟩)
    (hword ((i + 1) % rows, j) ⟨hbelow, hcolumn⟩)
  exact List.cons_eq_cons.2 ⟨hfirst, List.cons_eq_cons.2 ⟨hsecond, rfl⟩⟩

/- The faces of a grid are its tiles. -/
theorem indices_strips {s : Stitch} {rows len : Nat} (hrows : 0 < rows)
    (hsize : rows * len ≤ UInt32.size) :
    (strips s rows len).map Face.indices =
      (tiles s rows len).map (Triangle.map (number len) ∘ corners rows len) := by
  have htiles : tiles s rows len =
      (List.range (s.rowPairs rows)).flatMap fun i =>
        (List.range (s.columnPairs len)).flatMap fun j =>
          [Half.first, Half.second].map fun half => ((i, j), half) := by
    simp only [tiles, SProd.sprod, List.product, List.flatMap_assoc, List.flatMap_map]
  rw [strips_eq_flatMap s len hrows, htiles]
  simp only [strip, List.map_flatMap, List.map_map]
  refine List.flatMap_congr fun i hi => List.flatMap_congr fun j hj => ?_
  have hrow : i < rows := Nat.lt_of_lt_of_le (List.mem_range.1 hi) (rowPairs_le hrows)
  have hcolumn : j < len := Nat.lt_of_lt_of_le (List.mem_range.1 hj) (columnPairs_le s len)
  exact indices_quad hrow hcolumn hsize

theorem length_strips {s : Stitch} {rows len : Nat} (hrows : 0 < rows)
    (hsize : rows * len ≤ UInt32.size) :
    (strips s rows len).length = 2 * (s.rowPairs rows * s.columnPairs len) := by
  have hlength := congrArg List.length (indices_strips (s := s) hrows hsize)
  rwa [List.length_map, List.length_map, length_tiles] at hlength

theorem faces_eq_ok {s : Stitch} {rows len : Nat} (hrows : 0 < rows) (hlen : 0 < len)
    (hsize : rows * len ≤ UInt32.size) :
    faces s rows len = .ok (strips s rows len).toArray := by
  have hcount : s.rowPairs rows * s.columnPairs len * 2 ≤ UInt32.size * 2 :=
    Nat.mul_le_mul_right 2 (Nat.le_trans
      (Nat.mul_le_mul (rowPairs_le hrows) (columnPairs_le s len)) hsize)
  have hfaces : ¬faceLimit < s.rowPairs rows * s.columnPairs len * 2 :=
    Nat.not_lt.2 (Nat.le_trans hcount (by decide))
  have hsome : ¬(rows = 0 ∨ len = 0) := by omega
  rw [faces, if_neg hsome]
  simp only [if_neg hfaces]

end Grid

/-! ### Meshes on a grid -/

namespace Mesh

/- The mesh of a grid, when it fits its buffers. -/
def onGrid (s : Stitch) (rows len : Nat) (sample : Nat → Nat → Point α) : Mesh α :=
  ⟨Array.ofFn fun k : Fin (rows * len) => sample (k / len) (k % len),
    (Grid.strips s rows len).toArray⟩

theorem ofGrid_eq_ok {s : Stitch} {rows len : Nat} (sample : Nat → Nat → Point α)
    (hrows : 0 < rows) (hlen : 0 < len) (hsize : rows * len ≤ UInt32.size) :
    ofGrid s rows len sample = .ok (onGrid s rows len sample) := by
  have hvertices : ¬vertexLimit < rows * len :=
    Nat.not_lt.2 (Nat.le_trans hsize (by decide))
  rw [ofGrid, if_neg hvertices, Grid.faces_eq_ok hrows hlen hsize]
  rfl

theorem tessellate_openEnded [Scalar α] [Trig α] {slices sectors : Nat} (f : Position α)
    (hslices : 0 < slices) (hsectors : 0 < sectors)
    (hsize : (slices + 1) * sectors ≤ UInt32.size) :
    tessellate slices sectors f .openEnded =
      .ok (onGrid .tube (slices + 1) sectors fun i j =>
        f (i * pi / slices) (j * tau / sectors)) := by
  have hsome : ¬(slices = 0 ∨ sectors = 0) := by omega
  rw [tessellate, if_neg hsome]
  exact ofGrid_eq_ok _ (Nat.succ_pos slices) hsectors hsize

theorem vertexCount_onGrid (s : Stitch) (rows len : Nat) (sample : Nat → Nat → Point α) :
    (onGrid s rows len sample).vertexCount = rows * len := Array.size_ofFn

theorem position_onGrid {s : Stitch} {rows len k : Nat} {sample : Nat → Nat → Point α}
    {p : Point α} (h : (onGrid s rows len sample).positions[k]? = some p) :
    Grid.Inside rows len (Grid.place len k) ∧
      p = sample (Grid.place len k).1 (Grid.place len k).2 := by
  obtain ⟨hk, hp⟩ := Array.getElem?_eq_some_iff.1 h
  have hlt : k < rows * len := (vertexCount_onGrid s rows len sample) ▸ hk
  refine ⟨Grid.inside_place hlt, ?_⟩
  rw [← hp]
  exact Array.getElem_ofFn _

theorem cornersInRange_onGrid {s : Stitch} {rows len : Nat} (sample : Nat → Nat → Point α)
    (hrows : 0 < rows) (hsize : rows * len ≤ UInt32.size) :
    (onGrid s rows len sample).cornersInRange = true := by
  rw [cornersInRange_iff, vertexCount_onGrid]
  intro f hf
  have hindices : f.indices ∈ (Grid.strips s rows len).map Face.indices :=
    List.mem_map_of_mem (List.mem_toArray.1 hf)
  rw [Grid.indices_strips hrows hsize] at hindices
  obtain ⟨t, ht, heq⟩ := List.mem_map.1 hindices
  obtain ⟨ha, hb, hc⟩ := Grid.inside_corners ht hrows
  simp only [Function.comp_apply, Triangle.map, Face.indices, Prod.mk.injEq] at heq
  rw [Face.within_iff, ← heq.1, ← heq.2.1, ← heq.2.2]
  exact ⟨Grid.number_lt ha, Grid.number_lt hb, Grid.number_lt hc⟩

end Mesh

end ProceduralShapes
