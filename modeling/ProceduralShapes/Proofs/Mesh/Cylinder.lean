import ProceduralShapes.Mesh.Primitive
import ProceduralShapes.Proofs.Fallible
import ProceduralShapes.Proofs.Mesh.Join
import ProceduralShapes.Proofs.Mesh.Rim

/-!
# The surface of the cylinder

The vertices of the cylinder are two rings and the centres of two caps. A sector, from a corner of
the rings to the next, has four faces: two on the wall and one on each cap. No two sides of faces run
between the same vertices, and every side has one that runs the other way (`side_inj`,
`exists_mate`): across the diagonal of the wall, along a ring on the other side of it, or in the
sector before or after. The numbers of the vertices never leave 32 bits (`faces32_eq_ok`).
-/

namespace ProceduralShapes.Cylinder

open Grid (Follows)

/-! ### Vertices and sectors -/

inductive Spot
  | low (j : Nat)
  | high (j : Nat)
  | floor
  | roof
deriving DecidableEq

/- The four faces of a sector. -/
inductive Part
  | lower
  | upper
  | floor
  | roof
deriving DecidableEq

abbrev Tile := Nat × Part

def number (n : Nat) : Spot → Nat
  | .low j => j
  | .high j => n + j
  | .floor => 2 * n
  | .roof => 2 * n + 1

/- A spot of the cylinder with `n` corners to a ring. -/
def Inside (n : Nat) : Spot → Prop
  | .low j => j < n
  | .high j => j < n
  | .floor => True
  | .roof => True

/- The corners of a part of the sector from `j` to `j'`, in the order of its face. -/
def partCorners (j j' : Nat) : Part → Triangle Spot
  | .lower => (.low j, .high j, .low j')
  | .upper => (.low j', .high j, .high j')
  | .floor => (.floor, .low j, .low j')
  | .roof => (.roof, .high j', .high j)

def corners (n : Nat) (t : Tile) : Triangle Spot := partCorners t.1 ((t.1 + 1) % n) t.2

def parts : List Part := [.lower, .upper, .floor, .roof]

def tiles (n : Nat) : List Tile := List.range n ×ˢ parts

variable {n : Nat}

theorem mem_tiles {t : Tile} : t ∈ tiles n ↔ t.1 < n := by
  obtain ⟨j, part⟩ := t
  have hpart : part ∈ parts := by
    cases part <;> decide
  simp [tiles, hpart]

theorem nodup_tiles (n : Nat) : (tiles n).Nodup :=
  List.nodup_range.product (by decide)

theorem number_lt {p : Spot} (hp : Inside n p) : number n p < 2 * n + 2 := by
  cases p <;> simp only [Inside] at hp <;> simp only [number] <;> omega

theorem number_inj {p q : Spot} (hp : Inside n p) (hq : Inside n q)
    (h : number n p = number n q) : p = q := by
  cases p <;> cases q <;> simp only [Inside] at hp hq <;> simp only [number] at h <;>
    simp only [Spot.low.injEq, Spot.high.injEq, reduceCtorEq] <;> omega

theorem follows_iff (hn : 0 < n) {j j' : Nat} :
    Follows true n j j' ↔ j < n ∧ j' = (j + 1) % n :=
  Grid.follows_column_iff (s := .ring) hn

theorem ne_of_follows (hn : 3 ≤ n) {j j' : Nat} (hj : Follows true n j j') : j ≠ j' := by
  rintro rfl
  exact Follows.irrefl (fun _ => hn) hj

/- The corners of the tiles are spots of the cylinder. -/
theorem inside_partCorners {j j' : Nat} (hj : Follows true n j j') (part : Part) :
    Inside n (partCorners j j' part).1 ∧ Inside n (partCorners j j' part).2.1 ∧
      Inside n (partCorners j j' part).2.2 := by
  obtain ⟨hlt, hlt'⟩ := hj.lt
  cases part with
  | lower => exact ⟨hlt, hlt, hlt'⟩
  | upper => exact ⟨hlt', hlt, hlt'⟩
  | floor => exact ⟨trivial, hlt, hlt'⟩
  | roof => exact ⟨trivial, hlt', hlt⟩

theorem side_inj (hn : 3 ≤ n) {j j' i i' : Nat} {part part' : Part} {k k' : Fin 3}
    (hj : Follows true n j j') (hi : Follows true n i i')
    (h : Triangle.side (partCorners j j' part) k = Triangle.side (partCorners i i' part') k') :
    j = i ∧ part = part' ∧ k = k' := by
  replace hj := hj.long fun _ => hn
  replace hi := hi.long fun _ => hn
  cases part <;> cases part' <;> fin_cases k <;> fin_cases k' <;>
    simp only [partCorners, Triangle.side, Prod.mk.injEq, Spot.low.injEq, Spot.high.injEq,
      reduceCtorEq, and_true, true_and, and_false, false_and] at h ⊢ <;> omega

theorem partCorners_ne (hn : 3 ≤ n) {j j' : Nat} (hj : Follows true n j j') (part : Part) :
    (partCorners j j' part).1 ≠ (partCorners j j' part).2.1 ∧
      (partCorners j j' part).2.1 ≠ (partCorners j j' part).2.2 ∧
      (partCorners j j' part).1 ≠ (partCorners j j' part).2.2 := by
  have hne := ne_of_follows hn hj
  cases part <;> simp [partCorners, hne, hne.symm]

/- A side of some part that runs along `e` the other way. -/
def HasMate (n : Nat) (e : Spot × Spot) : Prop :=
  ∃ j j' part k, Follows true n j j' ∧ Triangle.side (partCorners j j' part) k = e.swap

theorem exists_mate {j j' : Nat} (hj : Follows true n j j') (part : Part) (k : Fin 3) :
    HasMate n (Triangle.side (partCorners j j' part) k) := by
  obtain ⟨i, hi⟩ : ∃ i, Follows true n i j := Grid.exists_before_iff.2 ⟨hj.lt.1, .inl rfl⟩
  obtain ⟨i', hi'⟩ : ∃ i', Follows true n j' i' := Grid.exists_follows_iff.2 ⟨hj.lt.2, .inl rfl⟩
  match part, k with
  -- On the wall: the sector before, the other half of the quad, the floor.
  | .lower, 0 => exact ⟨i, j, .upper, 2, hi, rfl⟩
  | .lower, 1 => exact ⟨j, j', .upper, 0, hj, rfl⟩
  | .lower, 2 => exact ⟨j, j', .floor, 1, hj, rfl⟩
  -- The other half of the quad, the roof, the sector after.
  | .upper, 0 => exact ⟨j, j', .lower, 1, hj, rfl⟩
  | .upper, 1 => exact ⟨j, j', .roof, 1, hj, rfl⟩
  | .upper, 2 => exact ⟨j', i', .lower, 0, hi', rfl⟩
  -- On a cap: the sectors before and after, and the wall between.
  | .floor, 0 => exact ⟨i, j, .floor, 2, hi, rfl⟩
  | .floor, 1 => exact ⟨j, j', .lower, 2, hj, rfl⟩
  | .floor, 2 => exact ⟨j', i', .floor, 0, hi', rfl⟩
  | .roof, 0 => exact ⟨j', i', .roof, 2, hi', rfl⟩
  | .roof, 1 => exact ⟨j, j', .upper, 1, hj, rfl⟩
  | .roof, 2 => exact ⟨i, j, .roof, 0, hi, rfl⟩

/-! ### Faces by number -/

theorem follows_of_mem {t : Tile} (ht : t ∈ tiles n) : Follows true n t.1 ((t.1 + 1) % n) :=
  (follows_iff (Nat.zero_lt_of_lt (mem_tiles.1 ht))).2 ⟨mem_tiles.1 ht, rfl⟩

theorem inside_corners {t : Tile} (ht : t ∈ tiles n) :
    Inside n (corners n t).1 ∧ Inside n (corners n t).2.1 ∧ Inside n (corners n t).2.2 :=
  inside_partCorners (follows_of_mem ht) t.2

theorem indices_cylinderSector (hsize : 2 * n + 2 ≤ UInt32.size) {j : Nat} (hj : j < n) :
    (Mesh.cylinderSector n j).map Face.indices =
      parts.map fun part => Triangle.map (number n) (corners n (j, part)) := by
  have hnext : (j + 1) % n < n := Nat.mod_lt _ (Nat.zero_lt_of_lt hj)
  simp only [Mesh.cylinderSector, parts, List.map_cons, List.map_nil]
  rw [indices_ofIndices, indices_ofIndices, indices_ofIndices, indices_ofIndices]
  · rfl
  all_goals omega

/- The faces of the cylinder are its tiles. -/
theorem indices_cylinderFaces (hsize : 2 * n + 2 ≤ UInt32.size) :
    (Mesh.cylinderFaces n).map Face.indices =
      (tiles n).map (Triangle.map (number n) ∘ corners n) := by
  have htiles : tiles n = (List.range n).flatMap fun j => parts.map fun part => (j, part) := rfl
  rw [Mesh.cylinderFaces, htiles, List.map_flatMap, List.map_flatMap]
  refine List.flatMap_congr fun j hj => ?_
  rw [indices_cylinderSector hsize (List.mem_range.1 hj), List.map_map]
  rfl

theorem tile_of_follows {j j' : Nat} (hj : Follows true n j j') (part : Part) :
    (j, part) ∈ tiles n ∧ corners n (j, part) = partCorners j j' part := by
  obtain ⟨hlt, rfl⟩ := (follows_iff (Nat.zero_lt_of_lt hj.lt.1)).1 hj
  exact ⟨mem_tiles.2 hlt, rfl⟩

theorem isClosed_cylinderFaces {α : Type} (hn : 3 ≤ n) (hsize : 2 * n + 2 ≤ UInt32.size)
    (positions : Array (Point α)) :
    Mesh.IsClosed ⟨positions, (Mesh.cylinderFaces n).toArray⟩ := by
  have hfaces : (Mesh.mk positions (Mesh.cylinderFaces n).toArray).faces.toList.map Face.indices =
      (tiles n).map (Triangle.map (number n) ∘ corners n) := indices_cylinderFaces hsize
  refine Mesh.isClosed_of_mates hfaces (nodup_tiles n) ?_ ?_
  · intro t ht k t' ht' k' h
    simp only [Function.comp_apply, Triangle.side_map] at h
    obtain ⟨hfst, hsnd⟩ := Prod.ext_iff.1 h
    obtain ⟨hp, hq⟩ := Triangle.side_of_corners (inside_corners ht) k
    obtain ⟨hp', hq'⟩ := Triangle.side_of_corners (inside_corners ht') k'
    obtain ⟨hj, hpart, hk⟩ := side_inj hn (follows_of_mem ht) (follows_of_mem ht')
      (Prod.ext (number_inj hp hp' hfst) (number_inj hq hq' hsnd))
    exact ⟨Prod.ext hj hpart, hk⟩
  · intro t ht k
    obtain ⟨j, j', part, l, hj, hl⟩ := exists_mate (follows_of_mem ht) t.2 k
    obtain ⟨ht', hcorners⟩ := tile_of_follows hj part
    refine ⟨(j, part), ht', l, ?_⟩
    simp only [Function.comp_apply, Triangle.side_map, hcorners, hl]
    rfl

/-! ### Round a vertex -/

/- The tiles that meet in a spot: in a corner of a ring those of its sector and of the sector before
it, in a centre all those of its cap. -/
def around (n i : Nat) : Spot → List Tile
  | .low j => [(j, .lower), (i, .lower), (i, .upper), (j, .floor), (i, .floor)]
  | .high j => [(j, .lower), (j, .upper), (i, .upper), (j, .roof), (i, .roof)]
  | .floor => (List.range n).map fun j => (j, .floor)
  | .roof => (List.range n).map fun j => (j, .roof)

/- The corner of a ring comes after `i`. -/
def Before (n i : Nat) : Spot → Prop
  | .low j => Follows true n i j
  | .high j => Follows true n i j
  | .floor => True
  | .roof => True

theorem nodup_around (hn : 3 ≤ n) {i : Nat} {p : Spot} (hi : Before n i p) :
    (around n i p).Nodup := by
  cases p with
  | low j | high j =>
    have hne := ne_of_follows hn hi
    simp [around, hne, hne.symm]
  | floor => exact List.nodup_range.map fun _ _ h => congrArg Prod.fst h
  | roof => exact List.nodup_range.map fun _ _ h => congrArg Prod.fst h

theorem mem_tiles_of_mem_around {i : Nat} {p : Spot} (hi : Before n i p) {t : Tile}
    (ht : t ∈ around n i p) : t ∈ tiles n := by
  obtain ⟨a, part⟩ := t
  rw [mem_tiles]
  cases p with
  | low j | high j =>
    have hlt := hi.lt
    simp only [around, List.mem_cons, List.not_mem_nil, or_false, Prod.mk.injEq] at ht
    omega
  | floor | roof =>
    obtain ⟨j, hj, heq⟩ := List.mem_map.1 ht
    cases heq
    exact List.mem_range.1 hj

theorem mem_around_iff {i : Nat} {p : Spot} (hi : Before n i p) (t : Tile) :
    t ∈ around n i p ↔ t ∈ tiles n ∧ p ∈ Triangle.toList (corners n t) := by
  have hmeet (ht : t ∈ tiles n) : t ∈ around n i p ↔ p ∈ Triangle.toList (corners n t) := by
    obtain ⟨a, part⟩ := t
    have ha := mem_tiles.1 ht
    have hnext := follows_of_mem ht
    -- In a ring there is one corner before a corner.
    have hbefore {j : Nat} (h : Follows true n i j) : j = (a + 1) % n ↔ a = i :=
      ⟨fun heq => (heq ▸ hnext).left_unique h, fun heq => h.right_unique (heq ▸ hnext)⟩
    cases p with
    | low j =>
      cases part <;>
        simp only [around, corners, partCorners, Triangle.toList, List.mem_cons, List.not_mem_nil,
          or_false, false_or, Prod.mk.injEq, and_true, and_false, reduceCtorEq, Spot.low.injEq,
          hbefore hi] <;> omega
    | high j =>
      cases part <;>
        simp only [around, corners, partCorners, Triangle.toList, List.mem_cons, List.not_mem_nil,
          or_false, false_or, Prod.mk.injEq, and_true, and_false, reduceCtorEq, Spot.high.injEq,
          hbefore hi] <;> omega
    | floor => cases part <;> simp [around, corners, partCorners, Triangle.toList, ha]
    | roof => cases part <;> simp [around, corners, partCorners, Triangle.toList, ha]
  exact ⟨fun h => ⟨mem_tiles_of_mem_around hi h, (hmeet (mem_tiles_of_mem_around hi h)).1 h⟩,
    fun h => (hmeet h.1).2 h.2⟩

/- As many faces meet in a vertex as there are tiles round its spot. -/
theorem countP_spot (hn : 3 ≤ n) (hsize : 2 * n + 2 ≤ UInt32.size) {i : Nat} {p : Spot}
    (hi : Before n i p) (hp : Inside n p) :
    ((Mesh.cylinderFaces n).countP fun f => number n p ∈ Triangle.toList f.indices) =
      (around n i p).length :=
  countP_corner_eq (indices_cylinderFaces hsize)
    (fun _ ht => Triangle.mem_toList_map (inside_corners ht) fun _ hq => number_inj hp hq)
    (nodup_tiles n) (nodup_around hn hi) (mem_around_iff hi)

/-! ### Faces in 32 bits -/

/- The sum, or a fault when it does not fit in 32 bits. -/
def sum32 (a b : UInt32) : Except Fault UInt32 :=
  if a.toBitVec.uaddOverflow b.toBitVec then .error .cornerTooLarge else .ok (a + b)

/- The faces of a sector with every number in 32 bits. -/
def sector32 (n floor roof j : UInt32) : Except Fault (List Face) := do
  let next := (← sum32 j 1) % n
  let high ← sum32 n j
  let highNext ← sum32 n next
  return [⟨j, high, next⟩, ⟨next, high, highNext⟩, ⟨floor, j, next⟩, ⟨roof, highNext, high⟩]

def faces32 (n : Nat) : Except Fault (List Face) := do
  let floor := (2 * n).toUInt32
  let roof ← sum32 floor 1
  let sectors ← (List.range n).mapM fun j => sector32 n.toUInt32 floor roof j.toUInt32
  return sectors.flatten

theorem sum32_eq_ok {a b : Nat} (h : a + b < UInt32.size) :
    sum32 a.toUInt32 b.toUInt32 = .ok (a + b).toUInt32 := by
  have ha : a.toUInt32.toNat = a := Face.toNat_toUInt32 (by omega)
  have hb : b.toUInt32.toNat = b := Face.toNat_toUInt32 (by omega)
  have hfits : ¬2 ^ 32 ≤ a.toUInt32.toNat + b.toUInt32.toNat := by
    rw [ha, hb]
    exact Nat.not_le.2 h
  have hsum : a.toUInt32 + b.toUInt32 = (a + b).toUInt32 := by
    rw [← UInt32.toNat_inj, UInt32.toNat_add, ha, hb, Face.toNat_toUInt32 h]
    exact Nat.mod_eq_of_lt h
  rw [sum32, BitVec.uaddOverflow, UInt32.toNat_toBitVec, UInt32.toNat_toBitVec,
    if_neg (by simpa using hfits), hsum]

theorem sector32_eq_ok (hsize : 2 * n + 2 ≤ UInt32.size) {j : Nat} (hj : j < n) :
    sector32 n.toUInt32 (2 * n).toUInt32 (2 * n + 1).toUInt32 j.toUInt32 =
      .ok (Mesh.cylinderSector n j) := by
  have hnext : (j + 1) % n < n := Nat.mod_lt _ (Nat.zero_lt_of_lt hj)
  have hmod : (j + 1).toUInt32 % n.toUInt32 = ((j + 1) % n).toUInt32 := by
    rw [← UInt32.toNat_inj, UInt32.toNat_mod, Face.toNat_toUInt32 (by omega),
      Face.toNat_toUInt32 (by omega), Face.toNat_toUInt32 (by omega)]
  have hone := sum32_eq_ok (a := j) (b := 1) (by omega)
  have hhigh := sum32_eq_ok (a := n) (b := j) (by omega)
  have hhighNext := sum32_eq_ok (a := n) (b := (j + 1) % n) (by omega)
  refine Fallible.bind_eq_ok_iff.2 ⟨_, hone, ?_⟩
  rw [hmod]
  refine Fallible.bind_eq_ok_iff.2 ⟨_, hhigh, ?_⟩
  exact Fallible.bind_eq_ok_iff.2 ⟨_, hhighNext, rfl⟩

theorem faces32_eq_ok (hsize : 2 * n + 2 ≤ UInt32.size) :
    faces32 n = .ok (Mesh.cylinderFaces n) := by
  have hroof := sum32_eq_ok (a := 2 * n) (b := 1) (by omega)
  refine Fallible.bind_eq_ok_iff.2 ⟨_, hroof, ?_⟩
  refine Fallible.bind_eq_ok_iff.2 ⟨_, Fallible.mapM_of_forall_ok fun j hj => ?_, rfl⟩
  exact sector32_eq_ok hsize (List.mem_range.1 hj)

end ProceduralShapes.Cylinder

namespace ProceduralShapes.Mesh

open Cylinder

variable {α : Type}

/- The number of faces that have the vertex as a corner. -/
def valence (m : Mesh α) (v : Nat) : Nat :=
  m.faces.toList.countP fun f => v ∈ Triangle.toList f.indices

section Cylinder
variable {n : Nat}

theorem length_cylinderPositions [Scalar α] [Trig α] (n : Nat) :
    (cylinderPositions n : List (Point α)).length = 2 * n + 2 := by
  simp only [cylinderPositions, List.length_append, List.length_map, List.length_range,
    List.length_cons, List.length_nil]
  omega

theorem centres_cylinderPositions [Scalar α] [Trig α] (n : Nat) :
    (cylinderPositions n : List (Point α)).toArray[2 * n]? = some ⟨0, -half, 0⟩ ∧
      (cylinderPositions n : List (Point α)).toArray[2 * n + 1]? = some ⟨0, half, 0⟩ := by
  have hrings : ((List.range n).map (ringCorner n (-half)) ++
      (List.range n).map (ringCorner n half) : List (Point α)).length = 2 * n := by
    simp only [List.length_append, List.length_map, List.length_range]
    omega
  have hbehind (k : Nat) : (cylinderPositions n : List (Point α)).toArray[2 * n + k]? =
      ([⟨0, -half, 0⟩, ⟨0, half, 0⟩] : List (Point α))[k]? := by
    rw [List.getElem?_toArray, cylinderPositions, List.getElem?_append_right (by omega), hrings,
      Nat.add_sub_cancel_left]
  exact ⟨hbehind 0, hbehind 1⟩

theorem length_cylinderFaces (hsize : 2 * n + 2 ≤ UInt32.size) :
    (cylinderFaces n).length = 4 * n := by
  have hindices := congrArg List.length (indices_cylinderFaces hsize)
  rw [List.length_map, List.length_map, tiles, List.length_product, List.length_range] at hindices
  rw [hindices, Nat.mul_comm]
  rfl

theorem exists_tile_of_mem (hsize : 2 * n + 2 ≤ UInt32.size) {f : Face}
    (hf : f ∈ (cylinderFaces n).toArray) :
    ∃ t ∈ tiles n, f.indices = Triangle.map (number n) (corners n t) := by
  have hindices : f.indices ∈ (cylinderFaces n).map Face.indices :=
    List.mem_map_of_mem (List.mem_toArray.1 hf)
  rw [indices_cylinderFaces hsize] at hindices
  obtain ⟨t, ht, heq⟩ := List.mem_map.1 hindices
  exact ⟨t, ht, heq.symm⟩

theorem within_cylinderFaces (hsize : 2 * n + 2 ≤ UInt32.size) {f : Face}
    (hf : f ∈ (cylinderFaces n).toArray) : f.within (2 * n + 2) = true := by
  obtain ⟨t, ht, heq⟩ := exists_tile_of_mem hsize hf
  obtain ⟨ha, hb, hc⟩ := inside_corners ht
  simp only [Face.indices, Triangle.map, Prod.mk.injEq] at heq
  rw [Face.within_iff, heq.1, heq.2.1, heq.2.2]
  exact ⟨number_lt ha, number_lt hb, number_lt hc⟩

theorem proper_cylinderFaces (hn : 3 ≤ n) (hsize : 2 * n + 2 ≤ UInt32.size) {f : Face}
    (hf : f ∈ (cylinderFaces n).toArray) : f.proper = true := by
  obtain ⟨t, ht, heq⟩ := exists_tile_of_mem hsize hf
  obtain ⟨ha, hb, hc⟩ := inside_corners ht
  obtain ⟨hab, hbc, hac⟩ := partCorners_ne hn (follows_of_mem ht) t.2
  rw [proper_eq_pairwiseDistinct, heq]
  exact decide_eq_true
    ⟨mt (number_inj ha hb) hab, mt (number_inj hb hc) hbc, mt (number_inj ha hc) hac⟩

theorem valence_cylinder (hn : 3 ≤ n) (hsize : 2 * n + 2 ≤ UInt32.size)
    (positions : Array (Point α)) {v : Nat} (hv : v < 2 * n) :
    valence ⟨positions, (cylinderFaces n).toArray⟩ v = 5 := by
  by_cases hlow : v < n
  · obtain ⟨i, hi⟩ : ∃ i, Grid.Follows true n i v := Grid.exists_before_iff.2 ⟨hlow, .inl rfl⟩
    exact countP_spot hn hsize (p := .low v) hi hlow
  · have hhigh : v - n < n := by omega
    obtain ⟨i, hi⟩ : ∃ i, Grid.Follows true n i (v - n) :=
      Grid.exists_before_iff.2 ⟨hhigh, .inl rfl⟩
    have hnumber : number n (.high (v - n)) = v := by
      rw [number]
      omega
    rw [valence, ← hnumber]
    exact countP_spot hn hsize hi hhigh

theorem valence_cylinder_centre (hn : 3 ≤ n) (hsize : 2 * n + 2 ≤ UInt32.size)
    (positions : Array (Point α)) :
    valence ⟨positions, (cylinderFaces n).toArray⟩ (2 * n) = n ∧
      valence ⟨positions, (cylinderFaces n).toArray⟩ (2 * n + 1) = n := by
  have hfloor := countP_spot hn hsize (i := 0) (p := .floor) trivial trivial
  have hroof := countP_spot hn hsize (i := 0) (p := .roof) trivial trivial
  have hlength (part : Part) : ((List.range n).map fun j => (j, part)).length = n := by
    rw [List.length_map, List.length_range]
  exact ⟨hfloor.trans (hlength .floor), hroof.trans (hlength .roof)⟩

end Cylinder

/- Whatever number of corners is asked for, the cylinder is a closed surface, and its numbers fit in
32 bits while those of its vertices do. -/
theorem unitCylinder_closed [Scalar α] [Trig α] {segments : Nat}
    (hsize : 2 * max segments 3 + 2 ≤ UInt32.size) :
    ∃ (n : Nat) (m : Mesh α), n = max segments 3 ∧ unitCylinder segments = .ok m ∧
      m.vertexCount = 2 * n + 2 ∧ m.triangleCount = 4 * n ∧
      m.cornersInRange = true ∧ (∀ f ∈ m.faces, f.proper = true) ∧ m.IsClosed ∧
      (m.point? (2 * n) = some ⟨0, -half, 0⟩ ∧ m.valence (2 * n) = n) ∧
      (m.point? (2 * n + 1) = some ⟨0, half, 0⟩ ∧ m.valence (2 * n + 1) = n) ∧
      (∀ v < 2 * n, m.valence v = 5) ∧
      faces32 n = .ok m.faces.toList := by
  have hn : 3 ≤ max segments 3 := Nat.le_max_right _ _
  generalize hmax : max segments 3 = n at hsize hn
  have hvertices : ¬vertexLimit < 2 * n + 2 := Nat.not_lt.2 (Nat.le_trans hsize (by decide))
  have hlimit : ¬faceLimit < 4 * n := by
    have hdouble : 2 * UInt32.size ≤ faceLimit := by decide
    omega
  obtain ⟨hfloor, hroof⟩ := centres_cylinderPositions (α := α) n
  obtain ⟨hbelow, habove⟩ :=
    valence_cylinder_centre hn hsize (cylinderPositions n : List (Point α)).toArray
  refine ⟨n, ⟨(cylinderPositions n).toArray, (cylinderFaces n).toArray⟩, rfl, ?_,
    length_cylinderPositions n, length_cylinderFaces hsize, ?_,
    fun f hf => proper_cylinderFaces hn hsize hf, isClosed_cylinderFaces hn hsize _,
    ⟨hfloor, hbelow⟩, ⟨hroof, habove⟩, fun v hv => valence_cylinder hn hsize _ hv,
    faces32_eq_ok hsize⟩
  · simp only [unitCylinder, hmax, hvertices, hlimit, if_false]
  · rw [cornersInRange_iff]
    intro f hf
    have hwithin := within_cylinderFaces hsize hf
    rw [← length_cylinderPositions (α := α)] at hwithin
    exact hwithin

/- The least cylinder, which has three corners to a ring though none is asked for, and the tube. -/
theorem smallest_cylinder_closed :
    (2 * max 0 3 + 2 ≤ UInt32.size ∧ ∃ m : Mesh Float, unitCylinder 0 = .ok m ∧
      m.triangleCount = 12 ∧ m.IsClosed ∧ m.valence 7 = 3) ∧
    (2 * max 12 3 + 2 ≤ UInt32.size ∧ ∃ m : Mesh Float, unitCylinder 12 = .ok m ∧
      m.triangleCount = 48 ∧ m.IsClosed ∧ m.valence 23 = 5) := by
  have hleast : 2 * max 0 3 + 2 ≤ UInt32.size := by decide
  have htube : 2 * max 12 3 + 2 ≤ UInt32.size := by decide
  obtain ⟨_, m, rfl, hm, -, hfaces, -, -, hclosed, -, ⟨-, hroof⟩, -⟩ :=
    unitCylinder_closed (α := Float) hleast
  obtain ⟨_, m', rfl, hm', -, hfaces', -, -, hclosed', -, -, hring, -⟩ :=
    unitCylinder_closed (α := Float) htube
  exact ⟨⟨hleast, m, hm, hfaces, hclosed, hroof⟩,
    ⟨htube, m', hm', hfaces', hclosed', hring 23 (by decide)⟩⟩

end ProceduralShapes.Mesh
