import Mathlib.Data.List.TakeWhile
import ProceduralShapes.Proofs.Fallible
import ProceduralShapes.Proofs.Mesh.Join
import ProceduralShapes.Scene

/-!
# Placed shapes

Placing goes through the placements in order. While their shapes are known it joins the meshes of
these, each moved by its transform, and at the first unknown one it ends with the name of that
(`foldlM_add`). With corners counted round nothing else can end it; with checked arithmetic the
answer is the same, or a fault that takes more vertices than 32 bits number. So a placed mesh is the
moved shapes one behind the other, vertices and triangles in the order of the placements, and of the
catalogue no more matters than the mesh put in last under each name (`place_joins`).
-/

namespace ProceduralShapes

open Fallible

variable {α : Type}

/-! ### Moved meshes -/

namespace Mesh

theorem positions_joinedAll (ms : List (Mesh α)) :
    (joinedAll ms).positions.toList = ms.flatMap fun m => m.positions.toList := by
  induction ms with
  | nil => rfl
  | cons m ms ih => rw [joinedAll_cons, joined_eq, Array.toList_append, ih, List.flatMap_cons]

variable [Scalar α]

theorem vertexCount_transformed (m : Mesh α) (t : Transform α) :
    (m.transformed t).vertexCount = m.vertexCount := Array.size_map

theorem cornersInRange_transformed (m : Mesh α) (t : Transform α) :
    (m.transformed t).cornersInRange = m.cornersInRange := by
  simp only [cornersInRange, vertexCount_transformed]
  rfl

theorem positions_transformed (m : Mesh α) (t : Transform α) :
    (m.transformed t).positions.toList = m.positions.toList.map t.apply := Array.toList_map

theorem soup_transformed (m : Mesh α) (t : Transform α) :
    (m.transformed t).soup = m.soup.map (Triangle.map (Option.map t.apply)) := by
  have hpoint : ∀ i, (m.transformed t).point? i = (m.point? i).map t.apply :=
    fun _ => Array.getElem?_map
  simp only [soup, List.map_map]
  refine List.map_congr_left fun f _ => ?_
  exact Prod.ext (hpoint _) (Prod.ext (hpoint _) (hpoint _))

end Mesh

namespace Scene

/-! ### Catalogues -/

section Catalogue
variable {shapes : Catalogue α} {ps : List (Placement α)}

/- The mesh that the catalogue has for a placement. -/
def piece (shapes : Catalogue α) (p : Placement α) : Mesh α := shapes.getD p.shape .empty

theorem piece_insert (shapes : Catalogue α) (name : String) (m : Mesh α) (p : Placement α) :
    piece (shapes.insert name m) p = if name = p.shape then m else piece shapes p := by
  simp only [piece, Std.TreeMap.getD_insert, Std.LawfulEqCmp.compare_eq_iff_eq]

theorem get?_of_mem {p : Placement α} (h : p.shape ∈ shapes) :
    shapes.get? p.shape = some (piece shapes p) := by
  rw [Std.TreeMap.get?_eq_getElem?]
  exact Std.TreeMap.getElem?_eq_some_getD h

theorem get?_of_not_mem {p : Placement α} (h : p.shape ∉ shapes) : shapes.get? p.shape = none := by
  rw [Std.TreeMap.get?_eq_getElem?]
  exact Std.TreeMap.getElem?_eq_none h

def firstUnknown? (shapes : Catalogue α) (ps : List (Placement α)) : Option (Placement α) :=
  ps.find? fun p => p.shape ∉ shapes

def knownPrefix (shapes : Catalogue α) (ps : List (Placement α)) : List (Placement α) :=
  ps.takeWhile fun p => p.shape ∈ shapes

theorem firstUnknown?_eq_none_iff :
    firstUnknown? shapes ps = none ↔ ∀ p ∈ ps, p.shape ∈ shapes := by
  simp [firstUnknown?]

theorem firstUnknown?_eq_some_iff {p : Placement α} :
    firstUnknown? shapes ps = some p ↔ p.shape ∉ shapes ∧
      ∃ before after, ps = before ++ p :: after ∧ ∀ q ∈ before, q.shape ∈ shapes := by
  simp [firstUnknown?, List.find?_eq_some_iff_append]

theorem knownPrefix_of_mem (h : ∀ p ∈ ps, p.shape ∈ shapes) : knownPrefix shapes ps = ps :=
  List.takeWhile_eq_self_iff.2 fun p hp => decide_eq_true (h p hp)

/- Every mesh of the catalogue has its corners among its vertices. -/
def Sound (shapes : Catalogue α) : Prop :=
  ∀ name m, shapes.get? name = some m → m.cornersInRange = true

theorem Sound.piece (h : Sound shapes) (p : Placement α) :
    (Scene.piece shapes p).cornersInRange = true := by
  by_cases hp : p.shape ∈ shapes
  · exact h _ _ (get?_of_mem hp)
  · have hnone : Scene.piece shapes p = .empty := Std.TreeMap.getD_eq_fallback hp
    rw [hnone]
    exact Mesh.cornersInRange_empty

/- The vertices of all placements together. -/
def size (shapes : Catalogue α) (ps : List (Placement α)) : Nat :=
  total (fun p => (piece shapes p).vertexCount) ps

theorem size_append (shapes : Catalogue α) (xs ys : List (Placement α)) :
    size shapes (xs ++ ys) = size shapes xs + size shapes ys := total_append _ xs ys

end Catalogue

/-! ### Joining the moved shapes -/

section Placing
variable [Scalar α] {shapes : Catalogue α} {ps : List (Placement α)}

/- The mesh of a placement where the placement puts it. -/
def moved (shapes : Catalogue α) (p : Placement α) : Mesh α :=
  (piece shapes p).transformed p.transform

/- The answer to placements of which `unknown?` is the first without a mesh, when those before it
have been joined to a mesh. -/
def answer (unknown? : Option (Placement α)) (m : Mesh α) : Except PlacementError (Mesh α) :=
  match unknown? with
  | none => .ok m
  | some p => .error (.unknownShape p.shape)

theorem add_of_mem {join : Joining α} {p : Placement α} (h : p.shape ∈ shapes) (m : Mesh α) :
    add join shapes m p = (join m (moved shapes p)).mapError .fault := by
  rw [add, get?_of_mem h]
  rfl

theorem add_of_not_mem {join : Joining α} {p : Placement α} (h : p.shape ∉ shapes) (m : Mesh α) :
    add join shapes m p = .error (.unknownShape p.shape) := by
  rw [add, get?_of_not_mem h]

/- The placements before the first unknown one are joined, then the answer is given. -/
theorem foldlM_add (join : Joining α) (shapes : Catalogue α) (ps : List (Placement α))
    (m : Mesh α) :
    ps.foldlM (add join shapes) m =
      (((knownPrefix shapes ps).map (moved shapes)).foldlM join m).mapError .fault >>=
        answer (firstUnknown? shapes ps) := by
  induction ps generalizing m with
  | nil => rfl
  | cons p rest ih =>
    rw [List.foldlM_cons]
    by_cases hp : p.shape ∈ shapes
    · have hprefix : knownPrefix shapes (p :: rest) = p :: knownPrefix shapes rest :=
        List.takeWhile_cons_of_pos (decide_eq_true hp)
      have hfirst : firstUnknown? shapes (p :: rest) = firstUnknown? shapes rest :=
        List.find?_cons_of_neg (by simpa using hp)
      rw [add_of_mem hp, hprefix, hfirst, List.map_cons, List.foldlM_cons, mapError_bind]
      cases join m (moved shapes p) with
      | error f => rfl
      | ok joined => exact ih joined
    · have hprefix : knownPrefix shapes (p :: rest) = [] :=
        List.takeWhile_cons_of_neg (by simpa using hp)
      have hfirst : firstUnknown? shapes (p :: rest) = some p :=
        List.find?_cons_of_pos (decide_eq_true hp)
      rw [add_of_not_mem hp, hprefix, hfirst]
      rfl

theorem place_eq (shapes : Catalogue α) (ps : List (Placement α)) :
    place shapes ps =
      (Mesh.concat ((knownPrefix shapes ps).map (moved shapes))).mapError .fault >>=
        answer (firstUnknown? shapes ps) := foldlM_add Mesh.append shapes ps .empty

theorem placeRound_eq (shapes : Catalogue α) (ps : List (Placement α)) :
    placeRound shapes ps = answer (firstUnknown? shapes ps)
      (Mesh.joinedAll ((knownPrefix shapes ps).map (moved shapes))) := by
  have hround : ∀ (ms : List (Mesh α)) m,
      ms.foldlM (fun m n => (.ok (m.joined n) : Except Fault (Mesh α))) m =
        .ok (ms.foldl Mesh.joined m) :=
    fun _ _ => List.foldlM_pure
  rw [placeRound, placeBy, foldlM_add, hround]
  rfl

/- Checked arithmetic makes no difference but for faults. -/
theorem place_eq_placeRound (h : ∀ f, place shapes ps ≠ .error (.fault f)) :
    place shapes ps = placeRound shapes ps := by
  rw [place_eq] at h ⊢
  rw [placeRound_eq]
  cases hconcat : Mesh.concat ((knownPrefix shapes ps).map (moved shapes)) with
  | ok m =>
    rw [Mesh.joinedAll_of_concat hconcat]
    rfl
  | error f =>
    rw [hconcat] at h
    exact absurd rfl (h f)

/- With corners counted round, placing succeeds exactly if all shapes are known. -/
theorem exists_placeRound_iff :
    (∃ m, placeRound shapes ps = .ok m) ↔ ∀ p ∈ ps, p.shape ∈ shapes := by
  rw [← firstUnknown?_eq_none_iff, placeRound_eq]
  cases firstUnknown? shapes ps with
  | none => simp [answer]
  | some p => simp [answer]

theorem placeRound_of_mem (h : ∀ p ∈ ps, p.shape ∈ shapes) :
    placeRound shapes ps = .ok (Mesh.joinedAll (ps.map (moved shapes))) := by
  rw [placeRound_eq, firstUnknown?_eq_none_iff.2 h, knownPrefix_of_mem h]
  rfl

/- The first placement without a mesh ends the placing. -/
theorem placeRound_of_not_mem (h : ¬∀ p ∈ ps, p.shape ∈ shapes) :
    ∃ before p after, ps = before ++ p :: after ∧ (∀ q ∈ before, q.shape ∈ shapes) ∧
      p.shape ∉ shapes ∧ placeRound shapes ps = .error (.unknownShape p.shape) := by
  rw [← firstUnknown?_eq_none_iff] at h
  obtain ⟨p, hp⟩ := Option.ne_none_iff_exists'.1 h
  obtain ⟨hunknown, before, after, heq, hbefore⟩ := firstUnknown?_eq_some_iff.1 hp
  refine ⟨before, p, after, heq, hbefore, hunknown, ?_⟩
  rw [placeRound_eq, hp]
  rfl

theorem placeRound_append {m : Mesh α} {xs ys : List (Placement α)}
    (h : placeRound shapes (xs ++ ys) = .ok m) :
    ∃ x y, placeRound shapes xs = .ok x ∧ placeRound shapes ys = .ok y ∧ x.joined y = m := by
  have hknown := exists_placeRound_iff.1 ⟨m, h⟩
  obtain ⟨hxs, hys⟩ := List.forall_mem_append.1 hknown
  refine ⟨_, _, placeRound_of_mem hxs, placeRound_of_mem hys, ?_⟩
  rw [placeRound_of_mem hknown] at h
  rw [← Mesh.joinedAll_append, ← List.map_append]
  exact Except.ok.inj h

/- Shapes that fit in one mesh can be moved and joined. -/
theorem Sound.fit (h : Sound shapes) (hsize : size shapes ps ≤ UInt32.size) :
    Mesh.Fit (ps.map (moved shapes)) where
  cornersInRange := by
    refine List.forall_mem_map.2 fun p _ => ?_
    rw [moved, Mesh.cornersInRange_transformed]
    exact h.piece p
  size_le := by
    simp only [total_map, moved, Mesh.vertexCount_transformed]
    exact hsize

theorem Sound.place (h : Sound shapes) (hsize : size shapes ps ≤ UInt32.size)
    (hknown : ∀ p ∈ ps, p.shape ∈ shapes) :
    Scene.place shapes ps = .ok (Mesh.joinedAll (ps.map (moved shapes))) := by
  rw [place_eq, knownPrefix_of_mem hknown, firstUnknown?_eq_none_iff.2 hknown,
    (h.fit hsize).concat]
  rfl

theorem Sound.place_append (h : Sound shapes) {xs ys : List (Placement α)}
    (hsize : size shapes (xs ++ ys) ≤ UInt32.size) (hknown : ∀ p ∈ xs ++ ys, p.shape ∈ shapes) :
    ∃ x y, Scene.place shapes xs = .ok x ∧ Scene.place shapes ys = .ok y ∧
      x.append y = .ok (Mesh.joinedAll ((xs ++ ys).map (moved shapes))) := by
  have hfit := h.fit hsize
  obtain ⟨hxs, hys⟩ := List.forall_mem_append.1 hknown
  rw [size_append] at hsize
  rw [List.map_append] at hfit ⊢
  refine ⟨_, _, h.place (by omega) hxs, h.place (by omega) hys, ?_⟩
  rw [hfit.joinedAll.append, Mesh.joinedAll_append]

/- Only placements that do not fit in one mesh are a fault. -/
theorem Sound.size_of_fault (h : Sound shapes) {f : Fault}
    (hfault : Scene.place shapes ps = .error (.fault f)) :
    UInt32.size < size shapes (knownPrefix shapes ps) := by
  refine Nat.not_le.1 fun hsize => ?_
  rw [place_eq, (h.fit hsize).concat] at hfault
  cases hfirst : firstUnknown? shapes ps with
  | none =>
    rw [hfirst] at hfault
    cases hfault
  | some p =>
    rw [hfirst] at hfault
    cases hfault

/- Of a catalogue only its answers matter. -/
theorem placeBy_congr {shapes' : Catalogue α} (h : ∀ name, shapes.get? name = shapes'.get? name)
    (join : Joining α) (ps : List (Placement α)) :
    placeBy join shapes ps = placeBy join shapes' ps := by
  have hadd : add join shapes = add join shapes' := by
    funext m p
    rw [add, add, h]
  rw [placeBy, placeBy, hadd]

theorem placeBy_insert_insert (join : Joining α) (shapes : Catalogue α) (name : String)
    (m m' : Mesh α) (ps : List (Placement α)) :
    placeBy join ((shapes.insert name m).insert name m') ps =
      placeBy join (shapes.insert name m') ps := by
  refine placeBy_congr (fun q => ?_) join ps
  simp only [Std.TreeMap.get?_eq_getElem?, Std.TreeMap.getElem?_insert]
  split
  · rfl
  · rfl

/- With corners counted round, placing succeeds exactly if all shapes are known, and names the first
unknown one otherwise. Checked arithmetic gives the same answer, or a fault where the shapes do not
fit in one mesh. If they do, the mesh is made of the moved shapes in the order of the placements.
Placing in two parts makes the two parts of it. The mesh put in last under a name is the one that
all placements of that name have. -/
theorem place_joins (shapes : Catalogue α) (hsound : Sound shapes) (ps : List (Placement α)) :
    ((∃ m, placeRound shapes ps = .ok m) ↔ ∀ p ∈ ps, p.shape ∈ shapes) ∧
    ((¬∀ p ∈ ps, p.shape ∈ shapes) → ∃ before p after, ps = before ++ p :: after ∧
      (∀ q ∈ before, q.shape ∈ shapes) ∧ p.shape ∉ shapes ∧
      placeRound shapes ps = .error (.unknownShape p.shape)) ∧
    (place shapes ps = placeRound shapes ps ∨ ∃ f, place shapes ps = .error (.fault f) ∧
      UInt32.size < size shapes (ps.takeWhile fun p => p.shape ∈ shapes)) ∧
    (∀ m, placeRound shapes ps = .ok m → ∀ xs ys, ps = xs ++ ys →
      ∃ x y, placeRound shapes xs = .ok x ∧ placeRound shapes ys = .ok y ∧ x.joined y = m) ∧
    (∀ m, placeRound shapes ps = .ok m → size shapes ps ≤ UInt32.size →
      place shapes ps = .ok m ∧ m.cornersInRange = true ∧
      m.positions.toList =
        ps.flatMap (fun p => (piece shapes p).positions.toList.map p.transform.apply) ∧
      m.soup =
        ps.flatMap (fun p => (piece shapes p).soup.map
          (Triangle.map (Option.map p.transform.apply))) ∧
      (∀ t ∈ m.soup, ∃ s : Triangle (Point α), t = Triangle.map some s) ∧
      ∀ xs ys, ps = xs ++ ys → ∃ x y, place shapes xs = .ok x ∧ place shapes ys = .ok y ∧
        x.append y = .ok m) ∧
    ∀ name m m', (∀ join : Joining α,
        placeBy join ((shapes.insert name m).insert name m') ps =
          placeBy join (shapes.insert name m') ps) ∧
      ∀ p, piece (shapes.insert name m) p = if name = p.shape then m else piece shapes p := by
  refine ⟨exists_placeRound_iff, placeRound_of_not_mem, ?_, ?_, ?_, ?_⟩
  · by_cases hfault : ∃ f, place shapes ps = .error (.fault f)
    · obtain ⟨f, hf⟩ := hfault
      exact .inr ⟨f, hf, hsound.size_of_fault hf⟩
    · exact .inl (place_eq_placeRound (not_exists.1 hfault))
  · rintro m hm xs ys rfl
    exact placeRound_append hm
  · intro m hm hsize
    have hknown := exists_placeRound_iff.1 ⟨m, hm⟩
    have hfit := hsound.fit hsize
    rw [placeRound_of_mem hknown] at hm
    cases hm
    have hrange := hfit.cornersInRange_joinedAll
    refine ⟨hsound.place hsize hknown, hrange, ?_, ?_, Mesh.exists_corners hrange, ?_⟩
    · rw [Mesh.positions_joinedAll, List.flatMap_map]
      simp only [moved, Mesh.positions_transformed]
    · rw [Mesh.soup_joinedAll hfit, List.flatMap_map]
      simp only [moved, Mesh.soup_transformed]
    · rintro xs ys rfl
      exact hsound.place_append hsize hknown
  · intro name m m'
    exact ⟨fun join => placeBy_insert_insert join shapes name m m' ps, piece_insert shapes name m⟩

end Placing

/- A catalogue whose only mesh was put in behind another of its name. -/
def tiles : Catalogue Float :=
  (({} : Catalogue Float).insert "tile" .empty).insert "tile" Mesh.rightTriangle

def tiling : List (Placement Float) := [⟨"tile", .identity⟩, ⟨"tile", .translate ⟨1, 0, 0⟩⟩]

theorem sound_tiles : Sound tiles := by
  intro name m h
  simp only [tiles, Std.TreeMap.get?_eq_getElem?, Std.TreeMap.getElem?_insert] at h
  split at h
  · cases h
    decide +kernel
  · simp at h

/- Two tiles side by side, and a third placement whose shape the catalogue lacks. -/
theorem tiling_joins : Sound tiles ∧ size tiles tiling ≤ UInt32.size ∧
    (∃ m, place tiles tiling = .ok m ∧ m.cornersInRange = true ∧
      m.soup =
        Mesh.rightTriangle.soup.map (Triangle.map (Option.map (Transform.apply .identity))) ++
          Mesh.rightTriangle.soup.map
            (Triangle.map (Option.map (Transform.apply (.translate ⟨1, 0, 0⟩))))) ∧
    placeRound tiles (tiling ++ [⟨"arc", .identity⟩]) = .error (.unknownShape "arc") ∧
    place tiles (tiling ++ [⟨"arc", .identity⟩]) = .error (.unknownShape "arc") := by
  have hsize : size tiles tiling ≤ UInt32.size := by decide +kernel
  refine ⟨sound_tiles, hsize, ?_, ?_⟩
  · obtain ⟨hplace, -, -, -, hmesh, -⟩ := place_joins tiles sound_tiles tiling
    obtain ⟨m, hm⟩ := hplace.2 (by decide +kernel)
    obtain ⟨hchecked, hrange, -, hsoup, -⟩ := hmesh m hm hsize
    exact ⟨m, hchecked, hrange, hsoup⟩
  · obtain ⟨-, hplace, hsame, -⟩ := place_joins tiles sound_tiles (tiling ++ [⟨"arc", .identity⟩])
    obtain ⟨before, p, after, heq, -, hunknown, herror⟩ := hplace (by decide +kernel)
    have hknown : ∀ q ∈ tiling, q.shape ∈ tiles := by decide +kernel
    have hmem : p ∈ tiling ++ [⟨"arc", .identity⟩] := by
      rw [heq]
      exact List.mem_append_right _ List.mem_cons_self
    have harc : p = ⟨"arc", .identity⟩ := by
      rcases List.mem_append.1 hmem with hmem | hmem
      · exact absurd (hknown p hmem) hunknown
      · exact List.mem_singleton.1 hmem
    rw [harc] at herror
    refine ⟨herror, ?_⟩
    rcases hsame with hsame | ⟨-, -, hlarge⟩
    · rw [hsame, herror]
    · exact absurd hlarge (by decide +kernel)

end Scene

end ProceduralShapes
