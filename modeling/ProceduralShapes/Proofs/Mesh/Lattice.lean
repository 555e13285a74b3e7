import ProceduralShapes.Mesh.Weld

/-!
# The lattice of a weld

Welding takes the vertices in one after the other (`Welding.Adds` says in which three ways). At
every point of it the bucket of a cell holds exactly the numbers of the kept vertices that lie in
the cell (`Filed`). While no number is given twice, the search sees every kept vertex of the cells
around a point and no other.
-/

namespace ProceduralShapes

variable {α : Type}

namespace Cell

theorem mem_around {i j : Int64} : j ∈ around i ↔
    j.toInt = max Int64.minValue.toInt (i.toInt - 1) ∨ j.toInt = i.toInt ∨
      j.toInt = min Int64.maxValue.toInt (i.toInt + 1) := by
  simp only [around, List.mem_cons, List.not_mem_nil, or_false, ← Int64.toInt_inj, toInt_before,
    toInt_after]

theorem mem_neighbours {c d : Cell} :
    d ∈ c.neighbours ↔ d.x ∈ around c.x ∧ d.y ∈ around c.y ∧ d.z ∈ around c.z := by
  simp only [neighbours, List.mem_flatMap, List.mem_map]
  constructor
  · rintro ⟨x, hx, y, hy, z, hz, rfl⟩
    exact ⟨hx, hy, hz⟩
  · rintro ⟨hx, hy, hz⟩
    exact ⟨d.x, hx, d.y, hy, d.z, hz, rfl⟩

end Cell

section Cells
variable [Scalar α] [Finiteness α] [CellIndex α]

theorem ofPoint?_eq_none_iff {density : α} {p : Point α} :
    Cell.ofPoint? density p = none ↔ p.isFinite = false := by
  unfold Cell.ofPoint?
  split
  · rename_i hfinite
    simp [hfinite]
  · rename_i hfinite
    simp [hfinite]

theorem isFinite_of_cell {density : α} {p : Point α} {c : Cell}
    (h : Cell.ofPoint? density p = some c) : p.isFinite = true := by
  cases hfinite : p.isFinite with
  | true => rfl
  | false =>
    rw [ofPoint?_eq_none_iff.2 hfinite] at h
    cases h

end Cells

namespace Mesh

theorem lt_size_of_getElem? {β : Type} {xs : Array β} {k : Nat} {x : β} (h : xs[k]? = some x) :
    k < xs.size := (Array.getElem?_eq_some_iff.1 h).1

theorem getElem?_push_eq_some {β : Type} {xs : Array β} {x y : β} {k : Nat} :
    (xs.push x)[k]? = some y ↔ xs[k]? = some y ∨ k = xs.size ∧ x = y := by
  rw [Array.getElem?_push]
  split
  · rename_i hk
    subst hk
    simp
  · rename_i hk
    simp [hk]

theorem getElem?_push_of_lt {β : Type} {xs : Array β} {x : β} {k : Nat} (h : k < xs.size) :
    (xs.push x)[k]? = xs[k]? := by
  rw [Array.getElem?_push, if_neg (Nat.ne_of_lt h)]

/-! ### Buckets -/

theorem bucket_keepIn (w : Welding α) (c d : Cell) (p : Point α) :
    (w.keepIn c p).bucket d =
      if c = d then (w.bucket c).push w.kept.size.toUInt32 else w.bucket d := by
  obtain ⟨kept, remap, buckets⟩ := w
  simp only [Welding.keepIn, Welding.bucket, Std.HashMap.getD_alter]
  by_cases h : c = d
  · subst h
    simp [Std.HashMap.getD_eq_getD_getElem?]
  · simp [h]

section Buckets
variable [Scalar α] [Finiteness α] [CellIndex α]

/- The bucket of every cell holds the numbers of the kept vertices of that cell. -/
def Welding.Filed (t : Tolerance α) (w : Welding α) : Prop :=
  ∀ c i, i ∈ w.bucket c ↔ ∃ (k : Nat) (q : Point α), w.kept[k]? = some q ∧
    Cell.ofPoint? (1 / t.eps) q = some c ∧ k.toUInt32 = i

theorem filed_empty (t : Tolerance α) : ({} : Welding α).Filed t := by
  intro c i
  simp [Welding.bucket]

end Buckets

/- The number of a kept vertex tells its place, while there are numbers for all of them. -/
theorem toNat_number {w : Welding α} (hsize : w.kept.size ≤ UInt32.size) {k : Nat} {q : Point α}
    (hk : w.kept[k]? = some q) : k.toUInt32.toNat = k :=
  Nat.mod_eq_of_lt (Nat.lt_of_lt_of_le (lt_size_of_getElem? hk) hsize)

section Welding
variable [Scalar α] [LE α] [DecidableLE α]

theorem isNear_iff {t : Tolerance α} {w : Welding α} {p : Point α} {i : UInt32} :
    w.isNear t p i = true ↔ ∃ q, w.kept[i.toNat]? = some q ∧ t.nearPoint q p = true := by
  unfold Welding.isNear
  split
  · rename_i q hq
    simp [hq]
  · rename_i hq
    simp [hq]

variable [Finiteness α] [CellIndex α]

/-! ### Taking a vertex in -/

/- All that taking the vertex `p` in can come to. -/
inductive Welding.Adds (t : Tolerance α) (w : Welding α) (p : Point α) : Welding α → Prop
  | alone (hcell : Cell.ofPoint? (1 / t.eps) p = none) : Adds t w p (w.keep p)
  | joined {c : Cell} {i : UInt32} (hcell : Cell.ofPoint? (1 / t.eps) p = some c)
      (hfind : w.find? t c p = some i) : Adds t w p (w.join i)
  | filed {c : Cell} (hcell : Cell.ofPoint? (1 / t.eps) p = some c)
      (hfind : w.find? t c p = none) : Adds t w p (w.keepIn c p)

theorem adds_add (t : Tolerance α) (w : Welding α) (p : Point α) : w.Adds t p (w.add t p) := by
  unfold Welding.add
  split
  · rename_i hcell
    exact .alone hcell
  · rename_i c hcell
    split
    · rename_i i hfind
      exact .joined hcell hfind
    · rename_i hfind
      exact .filed hcell hfind

theorem filed_add {t : Tolerance α} {w w' : Welding α} {p : Point α} (h : w.Filed t)
    (hadds : w.Adds t p w') : w'.Filed t := by
  intro d i
  cases hadds with
  | alone hcell =>
    have hbucket : (w.keep p).bucket d = w.bucket d := rfl
    have hkept : (w.keep p).kept = w.kept.push p := rfl
    rw [hbucket, hkept, h d i]
    simp only [getElem?_push_eq_some]
    constructor
    · rintro ⟨k, q, hq, hd, hi⟩
      exact ⟨k, q, .inl hq, hd, hi⟩
    · rintro ⟨k, q, hq | ⟨_, rfl⟩, hd, hi⟩
      · exact ⟨k, q, hq, hd, hi⟩
      · rw [hcell] at hd
        cases hd
  | joined hcell hfind => exact h d i
  | @filed c hcell hfind =>
    have hkept : (w.keepIn c p).kept = w.kept.push p := rfl
    rw [bucket_keepIn, hkept]
    simp only [getElem?_push_eq_some]
    by_cases hcd : c = d
    · subst hcd
      rw [if_pos rfl, Array.mem_push, h c i]
      constructor
      · rintro (⟨k, q, hq, hd, hi⟩ | rfl)
        · exact ⟨k, q, .inl hq, hd, hi⟩
        · exact ⟨w.kept.size, p, .inr ⟨rfl, rfl⟩, hcell, rfl⟩
      · rintro ⟨k, q, hq | ⟨rfl, _⟩, hd, hi⟩
        · exact .inl ⟨k, q, hq, hd, hi⟩
        · exact .inr hi.symm
    · rw [if_neg hcd, h d i]
      constructor
      · rintro ⟨k, q, hq, hd, hi⟩
        exact ⟨k, q, .inl hq, hd, hi⟩
      · rintro ⟨k, q, hq | ⟨_, rfl⟩, hd, hi⟩
        · exact ⟨k, q, hq, hd, hi⟩
        · rw [hcell] at hd
          exact absurd (Option.some.inj hd) hcd

theorem kept_of_adds {t : Tolerance α} {w w' : Welding α} {p : Point α} (hadds : w.Adds t p w') :
    w'.kept = w.kept ∨ w'.kept = w.kept.push p := by
  cases hadds with
  | alone hcell => exact .inr rfl
  | joined hcell hfind => exact .inl rfl
  | filed hcell hfind => exact .inr rfl

theorem size_kept_le_of_adds {t : Tolerance α} {w w' : Welding α} {p : Point α}
    (hadds : w.Adds t p w') : w'.kept.size ≤ w.kept.size + 1 := by
  rcases kept_of_adds hadds with hkept | hkept
  · rw [hkept]
    exact Nat.le_succ _
  · rw [hkept]
    exact Nat.le_of_eq (Array.size_push p)

/- What holds before the first vertex and is kept with every vertex taken in holds of the whole
welding. -/
theorem welding_induction {t : Tolerance α} {P : Array (Point α) → Welding α → Prop}
    (hnil : P #[] {})
    (hadd : ∀ ps w p w', w.Filed t → w.kept.size ≤ ps.size → P ps w → Welding.Adds t w p w' →
      P (ps.push p) w')
    (m : Mesh α) :
    (m.welding t).Filed t ∧ (m.welding t).kept.size ≤ m.vertexCount ∧
      P m.positions (m.welding t) := by
  have hfold : ∀ (qs : List (Point α)) ps w, w.Filed t → w.kept.size ≤ ps.size → P ps w →
      (qs.foldl (Welding.add t) w).Filed t ∧
        (qs.foldl (Welding.add t) w).kept.size ≤ (ps ++ qs.toArray).size ∧
        P (ps ++ qs.toArray) (qs.foldl (Welding.add t) w) := by
    intro qs
    induction qs with
    | nil =>
      intro ps w hfiled hsize h
      rw [Array.append_empty]
      exact ⟨hfiled, hsize, h⟩
    | cons q qs ih =>
      intro ps w hfiled hsize h
      have hadds := adds_add t w q
      have hsplit : ps ++ (q :: qs).toArray = ps.push q ++ qs.toArray := by simp
      rw [hsplit]
      refine ih (ps.push q) _ (filed_add hfiled hadds) ?_ (hadd ps w q _ hfiled hsize h hadds)
      rw [Array.size_push]
      exact Nat.le_trans (size_kept_le_of_adds hadds) (Nat.succ_le_succ hsize)
  have hwhole := hfold m.positions.toList #[] {} (filed_empty t) (Nat.le_refl 0) hnil
  rwa [Array.empty_append, Array.foldl_toList] at hwhole

/- As `welding_induction`, for a welding whose vertices all have numbers of their own. -/
theorem numbered_induction {t : Tolerance α} {P : Array (Point α) → Welding α → Prop}
    (hnil : P #[] {})
    (hadd : ∀ ps w p w', w.Filed t → w.kept.size < UInt32.size → P ps w → Welding.Adds t w p w' →
      P (ps.push p) w')
    {m : Mesh α} (hsize : m.vertexCount ≤ UInt32.size) : P m.positions (m.welding t) := by
  refine (welding_induction (t := t) (P := fun ps w => ps.size ≤ UInt32.size → P ps w)
    (fun _ => hnil) ?_ m).2.2 hsize
  intro ps w p w' hfiled hkept ih hadds hpush
  rw [Array.size_push] at hpush
  exact hadd ps w p w' hfiled (Nat.lt_of_le_of_lt hkept hpush) (ih (Nat.le_of_succ_le hpush)) hadds

theorem filed_welding (t : Tolerance α) (m : Mesh α) : (m.welding t).Filed t :=
  (welding_induction (t := t) (P := fun _ _ => True) trivial (fun _ _ _ _ _ _ _ _ => trivial) m).1

theorem size_kept_welding_le (t : Tolerance α) (m : Mesh α) :
    (m.welding t).kept.size ≤ m.vertexCount :=
  (welding_induction (t := t) (P := fun _ _ => True) trivial
    (fun _ _ _ _ _ _ _ _ => trivial) m).2.1

/-! ### The search -/

/- What is found is the number of a vertex that is kept and finite. -/
theorem number_of_find? {t : Tolerance α} {w : Welding α} {c : Cell} {p : Point α} {i : UInt32}
    (h : w.Filed t) (hfind : w.find? t c p = some i) :
    w.isNear t p i = true ∧ ∃ d ∈ c.neighbours, ∃ (k : Nat) (q : Point α), w.kept[k]? = some q ∧
      Cell.ofPoint? (1 / t.eps) q = some d ∧ k.toUInt32 = i := by
  obtain ⟨d, hd, hbucket⟩ := List.exists_of_findSome?_eq_some hfind
  exact ⟨Array.find?_some hbucket, d, hd, (h d i).1 (Array.mem_of_find?_eq_some hbucket)⟩

variable {t : Tolerance α} {w : Welding α} {c : Cell} {p : Point α}

/- A vertex that is found is kept, finite and near. -/
theorem near_of_find? {i : UInt32} (h : w.Filed t) (hsize : w.kept.size ≤ UInt32.size)
    (hfind : w.find? t c p = some i) :
    ∃ q, w.kept[i.toNat]? = some q ∧ q.isFinite = true ∧ t.nearPoint q p = true := by
  obtain ⟨hisNear, d, _, k, q, hq, hcell, rfl⟩ := number_of_find? h hfind
  obtain ⟨q', hq', hnear⟩ := isNear_iff.1 hisNear
  rw [toNat_number hsize hq] at hq' ⊢
  rw [hq] at hq'
  cases hq'
  exact ⟨q, hq, isFinite_of_cell hcell, hnear⟩

/- Nothing is found exactly if no kept vertex of the cells around is near. -/
theorem find?_eq_none_iff (h : w.Filed t) (hsize : w.kept.size ≤ UInt32.size) :
    w.find? t c p = none ↔ ∀ q ∈ w.kept, ∀ d ∈ c.neighbours,
      Cell.ofPoint? (1 / t.eps) q = some d → t.nearPoint q p = false := by
  unfold Welding.find?
  rw [List.findSome?_eq_none_iff]
  simp only [Array.find?_eq_none]
  constructor
  · intro hnone q hq d hd hcell
    obtain ⟨k, hk⟩ := Array.mem_iff_getElem?.1 hq
    have hfar := hnone d hd k.toUInt32 ((h d _).2 ⟨k, q, hk, hcell, rfl⟩)
    rw [isNear_iff, toNat_number hsize hk] at hfar
    cases hnear : t.nearPoint q p with
    | false => rfl
    | true => exact absurd ⟨q, hk, hnear⟩ hfar
  · intro hfar d hd i hi hnear
    obtain ⟨k, q, hq, hcell, rfl⟩ := (h d i).1 hi
    obtain ⟨q', hq', hnear'⟩ := isNear_iff.1 hnear
    rw [toNat_number hsize hq, hq] at hq'
    cases hq'
    have hno := hfar q (Array.mem_of_getElem? hq) d hd hcell
    rw [hnear'] at hno
    cases hno

end Welding

end Mesh

end ProceduralShapes
