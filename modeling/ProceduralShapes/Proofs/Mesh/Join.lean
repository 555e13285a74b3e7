import Mathlib.Data.List.Induction
import ProceduralShapes.Proofs.Fallible
import ProceduralShapes.Proofs.Mesh.GridFaces
import ProceduralShapes.Total

/-!
# Joined meshes

Joining puts the buffers of one mesh behind those of another and moves the corners of the second
past the vertices of the first. With corner numbers counted round at `2 ^ 32` that is an
associative operation (`joined`), the empty mesh is neutral for it, and moving the vertices by a
transform goes through it. While all vertices together have numbers of 32 bits (`Fit`) no corner
comes round: joining succeeds, and the triangles of the whole are those of the parts, in their
order (`concat_joins`).
-/

namespace ProceduralShapes

variable {α : Type}

/-! ### Faces that are moved up -/

namespace Face

theorem within_mono {n l : Nat} {f : Face} (h : f.within n = true) (hle : n ≤ l) :
    f.within l = true := by
  obtain ⟨ha, hb, hc⟩ := within_iff.1 h
  exact within_iff.2
    ⟨Nat.lt_of_lt_of_le ha hle, Nat.lt_of_lt_of_le hb hle, Nat.lt_of_lt_of_le hc hle⟩

theorem toNat_toUInt32 {n : Nat} (h : n < UInt32.size) : n.toUInt32.toNat = n :=
  Nat.mod_eq_of_lt h

theorem toNat_add_toUInt32 {i : UInt32} {n k : Nat} (hi : i.toNat < k)
    (hsize : n + k ≤ UInt32.size) : (i + n.toUInt32).toNat = n + i.toNat := by
  have hsum : i.toNat + n < UInt32.size := by omega
  rw [UInt32.toNat_add, toNat_toUInt32 (by omega), Nat.mod_eq_of_lt hsum, Nat.add_comm]

/- Corners are moved up, not around, while the last place for them has a number. -/
theorem indices_shift {n k : Nat} {f : Face} (h : f.within k = true)
    (hsize : n + k ≤ UInt32.size) :
    (f.shift n.toUInt32).indices = Triangle.map (n + ·) f.indices := by
  obtain ⟨ha, hb, hc⟩ := within_iff.1 h
  exact Prod.ext (toNat_add_toUInt32 ha hsize)
    (Prod.ext (toNat_add_toUInt32 hb hsize) (toNat_add_toUInt32 hc hsize))

theorem shiftable_of_within {n k : Nat} {f : Face} (h : f.within k = true)
    (hsize : n + k ≤ UInt32.size) : f.shiftable n.toUInt32 = true := by
  have hk : 0 < k := Nat.lt_of_le_of_lt (Nat.zero_le _) (within_iff.1 h).1
  refine within_mono h ?_
  rw [toNat_toUInt32 (by omega)]
  omega

theorem within_shift {n k : Nat} {f : Face} (h : f.within k = true)
    (hsize : n + k ≤ UInt32.size) : (f.shift n.toUInt32).within (n + k) = true := by
  obtain ⟨ha, hb, hc⟩ := within_iff.1 h
  have hindices := indices_shift h hsize
  simp only [indices, Triangle.map, Prod.mk.injEq] at hindices
  rw [within_iff, hindices.1, hindices.2.1, hindices.2.2]
  omega

theorem shift_zero (f : Face) : f.shift 0 = f := by
  simp only [shift, UInt32.add_zero]

theorem shift_shift (i j : UInt32) (f : Face) : (f.shift i).shift j = f.shift (j + i) := by
  simp only [shift, UInt32.add_assoc, UInt32.add_comm i j]

end Face

namespace Mesh

/-! ### Joining, with corners counted round -/

theorem joined_eq (m l : Mesh α) : m.joined l =
    ⟨m.positions ++ l.positions, m.faces ++ l.faces.map (·.shift m.vertexCount.toUInt32)⟩ := rfl

/- All meshes of a list, one behind the other. -/
def joinedAll (ms : List (Mesh α)) : Mesh α := ms.foldl joined empty

theorem append_of_shiftable {m l : Mesh α}
    (h : ∀ f ∈ l.faces, f.shiftable m.vertexCount.toUInt32 = true) :
    m.append l = .ok (m.joined l) :=
  if_pos (Array.all_eq_true_iff_forall_mem.2 h)

theorem joined_of_append {m l out : Mesh α} (h : m.append l = .ok out) : m.joined l = out := by
  unfold append at h
  split at h
  · exact Except.ok.inj h
  · cases h

/- A list that can be joined with checked arithmetic is joined as with corners counted round. -/
theorem foldl_joined_of_foldlM {ms : List (Mesh α)} {m out : Mesh α}
    (h : ms.foldlM append m = .ok out) : ms.foldl joined m = out := by
  induction ms generalizing m with
  | nil => exact Except.ok.inj h
  | cons l ms ih =>
    rw [List.foldlM_cons] at h
    obtain ⟨next, hnext, hrest⟩ := Fallible.bind_eq_ok_iff.1 h
    rw [List.foldl_cons, joined_of_append hnext]
    exact ih hrest

theorem joinedAll_of_concat {ms : List (Mesh α)} {out : Mesh α} (h : concat ms = .ok out) :
    joinedAll ms = out := foldl_joined_of_foldlM h

@[simp] theorem vertexCount_joined (m l : Mesh α) :
    (m.joined l).vertexCount = m.vertexCount + l.vertexCount := Array.size_append

@[simp] theorem triangleCount_joined (m l : Mesh α) :
    (m.joined l).triangleCount = m.triangleCount + l.triangleCount := by
  simp only [triangleCount, joined_eq, Array.size_append, Array.size_map]

theorem joined_empty (m : Mesh α) : m.joined empty = m := by
  simp only [joined_eq, empty, Array.map_empty, Array.append_empty]

theorem empty_joined (m : Mesh α) : empty.joined m = m := by
  have hshift : m.faces.map (·.shift (empty : Mesh α).vertexCount.toUInt32) = m.faces :=
    Array.map_id'' (fun f => f.shift_zero) m.faces
  simp only [joined_eq, hshift]
  simp only [empty, Array.empty_append]

theorem joined_assoc (a b c : Mesh α) : (a.joined b).joined c = a.joined (b.joined c) := by
  have hoffset : (a.joined b).vertexCount.toUInt32 =
      a.vertexCount.toUInt32 + b.vertexCount.toUInt32 := by
    rw [vertexCount_joined]
    exact UInt32.ofNat_add _ _
  have hshift : c.faces.map (·.shift (a.joined b).vertexCount.toUInt32) =
      (c.faces.map (·.shift b.vertexCount.toUInt32)).map (·.shift a.vertexCount.toUInt32) := by
    rw [Array.map_map, hoffset]
    exact Array.map_congr_left fun f _ => (Face.shift_shift _ _ f).symm
  rw [joined_eq, hshift]
  simp only [joined_eq, Array.append_assoc, Array.map_append]

instance : Std.Associative (joined : Mesh α → Mesh α → Mesh α) := ⟨joined_assoc⟩

theorem joinedAll_singleton (m : Mesh α) : joinedAll [m] = m := empty_joined m

theorem foldl_joined (m : Mesh α) (ms : List (Mesh α)) :
    ms.foldl joined m = m.joined (joinedAll ms) := by
  have h : ms.foldl joined (m.joined empty) = m.joined (ms.foldl joined empty) := List.foldl_assoc
  rwa [joined_empty] at h

theorem joinedAll_cons (m : Mesh α) (ms : List (Mesh α)) :
    joinedAll (m :: ms) = m.joined (joinedAll ms) := by
  rw [joinedAll, List.foldl_cons, empty_joined, foldl_joined]

theorem joinedAll_append (xs ys : List (Mesh α)) :
    joinedAll (xs ++ ys) = (joinedAll xs).joined (joinedAll ys) := by
  induction xs with
  | nil => exact (empty_joined _).symm
  | cons x xs ih => rw [List.cons_append, joinedAll_cons, ih, joinedAll_cons, joined_assoc]

@[simp] theorem vertexCount_joinedAll (ms : List (Mesh α)) :
    (joinedAll ms).vertexCount = total vertexCount ms := by
  induction ms with
  | nil => rfl
  | cons m ms ih => rw [joinedAll_cons, vertexCount_joined, ih, total_cons]

@[simp] theorem triangleCount_joinedAll (ms : List (Mesh α)) :
    (joinedAll ms).triangleCount = total triangleCount ms := by
  induction ms with
  | nil => rfl
  | cons m ms ih => rw [joinedAll_cons, triangleCount_joined, ih, total_cons]

section Transform
variable [Scalar α]

theorem transformed_joined (t : Transform α) (m l : Mesh α) :
    (m.joined l).transformed t = (m.transformed t).joined (l.transformed t) := by
  have hcount : (m.transformed t).vertexCount = m.vertexCount := Array.size_map
  simp only [joined_eq, hcount]
  simp only [transformed, Array.map_append]

theorem transformed_joinedAll (t : Transform α) (ms : List (Mesh α)) :
    (joinedAll ms).transformed t = joinedAll (ms.map (·.transformed t)) := by
  induction ms with
  | nil => simp only [joinedAll, List.map_nil, List.foldl_nil, empty, transformed, Array.map_empty]
  | cons m ms ih => rw [joinedAll_cons, transformed_joined, ih, List.map_cons, joinedAll_cons]

end Transform

/-! ### Meshes that fit in one -/

/- Every corner is a vertex of its mesh, and all vertices together have numbers of 32 bits. -/
structure Fit (ms : List (Mesh α)) : Prop where
  cornersInRange : ∀ m ∈ ms, m.cornersInRange = true
  size_le : total vertexCount ms ≤ UInt32.size

section Fit
variable {m l : Mesh α} {ms xs ys : List (Mesh α)}

theorem Fit.left (h : Fit (xs ++ ys)) : Fit xs where
  cornersInRange m hm := h.cornersInRange m (List.mem_append_left ys hm)
  size_le := by
    have hsize := h.size_le
    rw [total_append] at hsize
    omega

theorem Fit.right (h : Fit (xs ++ ys)) : Fit ys where
  cornersInRange m hm := h.cornersInRange m (List.mem_append_right xs hm)
  size_le := by
    have hsize := h.size_le
    rw [total_append] at hsize
    omega

theorem Fit.head (h : Fit (m :: ms)) : m.cornersInRange = true :=
  h.cornersInRange m List.mem_cons_self

theorem Fit.tail (h : Fit (m :: ms)) : Fit ms := (show Fit ([m] ++ ms) from h).right

theorem fit_pair (hm : m.cornersInRange = true) (hl : l.cornersInRange = true)
    (hsize : m.vertexCount + l.vertexCount ≤ UInt32.size) : Fit [m, l] where
  cornersInRange := by
    intro n hn
    simp only [List.mem_cons, List.not_mem_nil, or_false] at hn
    rcases hn with rfl | rfl
    · exact hm
    · exact hl
  size_le := hsize

/- No corner of the second mesh is moved beyond 32 bits. -/
theorem Fit.append (h : Fit [m, l]) : m.append l = .ok (m.joined l) := by
  have hl := cornersInRange_iff.1 h.tail.head
  exact append_of_shiftable fun f hf => Face.shiftable_of_within (hl f hf) h.size_le

theorem Fit.cornersInRange_joined (h : Fit [m, l]) : (m.joined l).cornersInRange = true := by
  have hm := cornersInRange_iff.1 h.head
  have hl := cornersInRange_iff.1 h.tail.head
  refine cornersInRange_iff.2 fun f hf => ?_
  rw [vertexCount_joined]
  rcases Array.mem_append.1 hf with hold | hnew
  · exact Face.within_mono (hm f hold) (Nat.le_add_right _ _)
  · obtain ⟨e, he, rfl⟩ := Array.mem_map.1 hnew
    exact Face.within_shift (hl e he) h.size_le

theorem cornersInRange_empty : (empty : Mesh α).cornersInRange = true :=
  cornersInRange_iff.2 fun _ hf => absurd hf (Array.not_mem_empty _)

theorem Fit.cornersInRange_joinedAll (h : Fit ms) : (joinedAll ms).cornersInRange = true := by
  induction ms with
  | nil => exact cornersInRange_empty
  | cons m ms ih =>
    have hsize := h.size_le
    rw [total_cons, ← vertexCount_joinedAll] at hsize
    rw [joinedAll_cons]
    exact (fit_pair h.head (ih h.tail) hsize).cornersInRange_joined

theorem Fit.joinedAll (h : Fit (xs ++ ys)) : Fit [joinedAll xs, joinedAll ys] := by
  have hsize := h.size_le
  rw [total_append, ← vertexCount_joinedAll xs, ← vertexCount_joinedAll ys] at hsize
  exact fit_pair h.left.cornersInRange_joinedAll h.right.cornersInRange_joinedAll hsize

theorem Fit.concat (h : Fit ms) : concat ms = .ok (Mesh.joinedAll ms) := by
  induction ms using List.reverseRecOn with
  | nil => rfl
  | append_singleton ms m ih =>
    have hpair := h.joinedAll
    rw [joinedAll_singleton] at hpair
    have hms : ms.foldlM Mesh.append empty = .ok (Mesh.joinedAll ms) := ih h.left
    rw [Mesh.concat, List.foldlM_append, hms, joinedAll_append, joinedAll_singleton, ← hpair.append]
    exact bind_pure (m := Except Fault) _

theorem Fit.transformed [Scalar α] (h : Fit ms) (t : Transform α) :
    Fit (ms.map (·.transformed t)) := by
  have hcount : ∀ m : Mesh α, (m.transformed t).vertexCount = m.vertexCount :=
    fun m => Array.size_map
  refine ⟨fun l hl => ?_, ?_⟩
  · obtain ⟨m, hm, rfl⟩ := List.mem_map.1 hl
    have hrange := h.cornersInRange m hm
    rw [cornersInRange_iff] at hrange ⊢
    rw [hcount]
    exact hrange
  · rw [total_map]
    simpa only [hcount] using h.size_le

end Fit

/-! ### Triangles of points -/

/- The triangles of a mesh in the order of its faces, each by the places of its corners. -/
def soup (m : Mesh α) : List (Triangle (Option (Point α))) :=
  m.faces.toList.map fun f => Triangle.map m.point? f.indices

theorem exists_corners {m : Mesh α} (hm : m.cornersInRange = true) :
    ∀ t ∈ m.soup, ∃ s : Triangle (Point α), t = Triangle.map some s := by
  intro t ht
  obtain ⟨f, hf, rfl⟩ := List.mem_map.1 ht
  obtain ⟨ha, hb, hc⟩ := Face.within_iff.1 (cornersInRange_iff.1 hm f (Array.mem_toList_iff.1 hf))
  exact ⟨(m.positions[f.a.toNat], m.positions[f.b.toNat], m.positions[f.c.toNat]),
    Prod.ext (Array.getElem?_eq_getElem ha)
      (Prod.ext (Array.getElem?_eq_getElem hb) (Array.getElem?_eq_getElem hc))⟩

theorem point?_joined_left {m : Mesh α} (l : Mesh α) {i : Nat} (hi : i < m.vertexCount) :
    (m.joined l).point? i = m.point? i := Array.getElem?_append_left hi

theorem point?_joined_right (m l : Mesh α) (i : Nat) :
    (m.joined l).point? (m.vertexCount + i) = l.point? i := by
  have h : (m.positions ++ l.positions)[m.vertexCount + i]? =
      l.positions[m.vertexCount + i - m.positions.size]? :=
    Array.getElem?_append_right (Nat.le_add_right _ i)
  exact h.trans (congrArg (l.positions[·]?) (Nat.add_sub_cancel_left _ i))

theorem soup_joined {m l : Mesh α} (h : Fit [m, l]) : (m.joined l).soup = m.soup ++ l.soup := by
  have hm := cornersInRange_iff.1 h.head
  have hl := cornersInRange_iff.1 h.tail.head
  simp only [soup]
  rw [joined_eq, Array.toList_append, Array.toList_map, List.map_append, List.map_map]
  congr 1
  · refine List.map_congr_left fun f hf => ?_
    obtain ⟨ha, hb, hc⟩ := Face.within_iff.1 (hm f (Array.mem_toList_iff.1 hf))
    exact Prod.ext (point?_joined_left l ha)
      (Prod.ext (point?_joined_left l hb) (point?_joined_left l hc))
  · refine List.map_congr_left fun f hf => ?_
    have hshift := Face.indices_shift (hl f (Array.mem_toList_iff.1 hf)) h.size_le
    have hpoint := point?_joined_right m l
    exact (congrArg _ hshift).trans
      (Prod.ext (hpoint _) (Prod.ext (hpoint _) (hpoint _)))

theorem soup_joinedAll {ms : List (Mesh α)} (h : Fit ms) :
    (joinedAll ms).soup = ms.flatMap soup := by
  induction ms with
  | nil => rfl
  | cons m ms ih =>
    have hpair := (show Fit ([m] ++ ms) from h).joinedAll
    rw [joinedAll_singleton] at hpair
    rw [joinedAll_cons, soup_joined hpair, ih h.tail, List.flatMap_cons]

/-! ### Where the parts stand -/

/- The vertices of `piece` stand in `m` behind `v` others, and its faces behind `t` others, with
their corners moved past those vertices. -/
structure Contains (m piece : Mesh α) (v t : Nat) : Prop where
  position_eq : ∀ i < piece.vertexCount, m.positions[v + i]? = piece.positions[i]?
  indices_eq : ∀ i < piece.triangleCount, m.faces[t + i]?.map Face.indices =
    piece.faces[i]?.map fun f => Triangle.map (v + ·) f.indices

theorem getElem?_faces_joined_left {m : Mesh α} (l : Mesh α) {i : Nat} (hi : i < m.triangleCount) :
    (m.joined l).faces[i]? = m.faces[i]? := Array.getElem?_append_left hi

theorem getElem?_faces_joined_right (m l : Mesh α) (i : Nat) :
    (m.joined l).faces[m.triangleCount + i]? =
      l.faces[i]?.map (·.shift m.vertexCount.toUInt32) := by
  have h : (m.joined l).faces[m.triangleCount + i]? =
      (l.faces.map (·.shift m.vertexCount.toUInt32))[m.triangleCount + i - m.faces.size]? :=
    Array.getElem?_append_right (Nat.le_add_right _ i)
  rw [h, triangleCount, Nat.add_sub_cancel_left, Array.getElem?_map]

theorem contains_joinedAll {xs ys : List (Mesh α)} {m : Mesh α} (h : Fit (xs ++ m :: ys)) :
    (joinedAll (xs ++ m :: ys)).Contains m (total vertexCount xs) (total triangleCount xs) := by
  have hsize := h.size_le
  rw [total_append, total_cons] at hsize
  rw [joinedAll_append, joinedAll_cons, ← vertexCount_joinedAll, ← triangleCount_joinedAll]
  constructor
  · intro i hi
    exact (point?_joined_right _ _ i).trans (point?_joined_left _ hi)
  · intro i hi
    rw [getElem?_faces_joined_right, getElem?_faces_joined_left _ hi, vertexCount_joinedAll,
      Array.getElem?_eq_getElem hi]
    have hwithin := cornersInRange_iff.1 h.right.head m.faces[i] (Array.getElem_mem hi)
    exact congrArg some (Face.indices_shift hwithin (by omega))

/-! ### Joining -/

section Joining
variable [Scalar α]

/- Meshes that fit in one can be joined, in one go or in parts, and every triangle of points stays
where it is. The empty mesh adds nothing to any mesh, and moved parts make the moved whole. -/
theorem concat_joins :
    (∀ ms : List (Mesh α), Fit ms → ∃ out, concat ms = .ok out ∧ out.cornersInRange = true ∧
      out.soup = ms.flatMap soup ∧
      ∀ t ∈ out.soup, ∃ s : Triangle (Point α), t = Triangle.map some s) ∧
    (∀ xs ys : List (Mesh α), Fit (xs ++ ys) → ∃ x y out, concat xs = .ok x ∧ concat ys = .ok y ∧
      x.append y = .ok out ∧ concat (xs ++ ys) = .ok out) ∧
    (∀ a b c : Mesh α, Fit [a, b, c] → ∃ ab bc out, a.append b = .ok ab ∧ b.append c = .ok bc ∧
      ab.append c = .ok out ∧ a.append bc = .ok out) ∧
    (∀ m : Mesh α, append empty m = .ok m ∧ m.append empty = .ok m) ∧
    ∀ (t : Transform α) (ms : List (Mesh α)), Fit ms → ∃ out, concat ms = .ok out ∧
      concat (ms.map (·.transformed t)) = .ok (out.transformed t) := by
  refine ⟨?_, ?_, ?_, ?_, ?_⟩
  · intro ms h
    have hrange := h.cornersInRange_joinedAll
    exact ⟨_, h.concat, hrange, soup_joinedAll h, exists_corners hrange⟩
  · intro xs ys h
    refine ⟨_, _, _, h.left.concat, h.right.concat, h.joinedAll.append, ?_⟩
    rw [h.concat, joinedAll_append]
  · intro a b c h
    have hab : Fit [a, b] := (show Fit ([a, b] ++ [c]) from h).left
    have hbc : Fit [b, c] := h.tail
    have hleft := (show Fit ([a, b] ++ [c]) from h).joinedAll
    have hright := (show Fit ([a] ++ [b, c]) from h).joinedAll
    rw [joinedAll_singleton, joinedAll_cons, joinedAll_singleton] at hleft hright
    refine ⟨_, _, _, hab.append, hbc.append, hleft.append, ?_⟩
    rw [hright.append, joined_assoc]
  · intro m
    have hempty : ∀ f ∈ m.faces, f.shiftable (empty : Mesh α).vertexCount.toUInt32 = true :=
      fun f _ => Face.within_iff.2 ⟨f.a.toNat_lt, f.b.toNat_lt, f.c.toNat_lt⟩
    have hnone : ∀ f ∈ (empty : Mesh α).faces, f.shiftable m.vertexCount.toUInt32 = true :=
      fun _ hf => absurd hf (Array.not_mem_empty _)
    rw [append_of_shiftable hempty, append_of_shiftable hnone, empty_joined, joined_empty]
    exact ⟨rfl, rfl⟩
  · intro t ms h
    refine ⟨_, h.concat, ?_⟩
    rw [(h.transformed t).concat, transformed_joinedAll]

end Joining

/- One triangle with legs of length one. -/
def rightTriangle : Mesh Float := ⟨#[⟨0, 0, 0⟩, ⟨1, 0, 0⟩, ⟨0, 1, 0⟩], #[⟨0, 1, 2⟩]⟩

/- A mesh that leaves room for so many vertices. -/
def wide (room : Nat) : Mesh Float :=
  ⟨Array.replicate (UInt32.size - room) ⟨0, 0, 0⟩, #[⟨0, 1, (UInt32.size - room - 1).toUInt32⟩]⟩

theorem vertexCount_wide (room : Nat) : (wide room).vertexCount = UInt32.size - room :=
  Array.size_replicate

theorem fit_wide : Fit [wide 6, rightTriangle, rightTriangle] ∧
    total vertexCount [wide 6, rightTriangle, rightTriangle] = UInt32.size := by
  have hwide : (wide 6).cornersInRange = true := by
    rw [cornersInRange, vertexCount_wide]
    simp [wide, Face.within, UInt32.size]
  have htriangle : rightTriangle.cornersInRange = true := by
    simp [cornersInRange, vertexCount, rightTriangle, Face.within]
  have htotal : total vertexCount [wide 6, rightTriangle, rightTriangle] = UInt32.size := by
    rw [total_cons, vertexCount_wide]
    rfl
  refine ⟨⟨fun m hm => ?_, Nat.le_of_eq htotal⟩, htotal⟩
  simp only [List.mem_cons, List.not_mem_nil, or_false, or_self] at hm
  rcases hm with rfl | rfl
  · exact hwide
  · exact htriangle

/- Two triangles that take the last six places for vertices. -/
theorem wide_joins : Fit [wide 6, rightTriangle, rightTriangle] ∧
    total vertexCount [wide 6, rightTriangle, rightTriangle] = UInt32.size ∧
    (∃ out, concat [wide 6, rightTriangle, rightTriangle] = .ok out ∧ out.cornersInRange = true ∧
      out.soup = (wide 6).soup ++ (rightTriangle.soup ++ rightTriangle.soup)) ∧
    (∃ x y out, concat [wide 6] = .ok x ∧ concat [rightTriangle, rightTriangle] = .ok y ∧
      x.append y = .ok out ∧ concat [wide 6, rightTriangle, rightTriangle] = .ok out) ∧
    (∃ ab bc out, (wide 6).append rightTriangle = .ok ab ∧
      rightTriangle.append rightTriangle = .ok bc ∧ ab.append rightTriangle = .ok out ∧
      (wide 6).append bc = .ok out) ∧
    ∃ out, concat [wide 6, rightTriangle, rightTriangle] = .ok out ∧
      concat ([wide 6, rightTriangle, rightTriangle].map (·.transformed (.translate ⟨0, 0, 1⟩))) =
        .ok (out.transformed (.translate ⟨0, 0, 1⟩)) := by
  obtain ⟨hfit, htotal⟩ := fit_wide
  obtain ⟨hconcat, hparts, hthree, -, hmoved⟩ := concat_joins (α := Float)
  obtain ⟨out, hout, hrange, hsoup, -⟩ := hconcat _ hfit
  exact ⟨hfit, htotal, ⟨out, hout, hrange, hsoup⟩, hparts [wide 6] _ hfit, hthree _ _ _ hfit,
    hmoved _ _ hfit⟩

end Mesh

end ProceduralShapes
