import Mathlib.Data.Fintype.Basic
import Mathlib.Tactic.FinCases
import ProceduralShapes.Proofs.Mesh.Edges

/-!
# The rim of a grid

The rows of a grid form a line, or a ring if the last is stitched to the first, and so do its
columns. A line of any length, and a ring of at least three, has no two neighbours that come after
each other in both orders (`Follows.asymm`), so a place and the next one say in which tile a side
runs. Hence no two faces run along an edge in the same direction, and one runs back along it unless
the edge is on the rim, where rows or columns end (`faces_manifold`). A grid that is closed both
ways has no rim, and six triangles at every vertex.
-/

namespace ProceduralShapes.Grid

/-! ### Lines and rings -/

/- In a line of `n` places, or a ring if it is closed, `i'` comes after `i`. -/
def Follows (closed : Bool) (n i i' : Nat) : Prop :=
  i' = i + 1 ∧ i' < n ∨ closed = true ∧ i + 1 = n ∧ i' = 0

section Follows
variable {closed : Bool} {n i i' k k' : Nat}

theorem Follows.lt (h : Follows closed n i i') : i < n ∧ i' < n := by
  unfold Follows at h
  omega

theorem Follows.left_unique (h : Follows closed n i k) (h' : Follows closed n i' k) : i = i' := by
  unfold Follows at h h'
  omega

theorem Follows.right_unique (h : Follows closed n i k) (h' : Follows closed n i k') : k = k' := by
  unfold Follows at h h'
  omega

/- What the order of two places says to arithmetic. -/
theorem Follows.long (hn : closed = true → 3 ≤ n) (h : Follows closed n i i') :
    i' = i + 1 ∧ i' < n ∨ 3 ≤ n ∧ i + 1 = n ∧ i' = 0 := by
  rcases h with h | ⟨hclosed, h⟩
  · exact .inl h
  · exact .inr ⟨hn hclosed, h⟩

/- In a ring of two, each place would come after the other. -/
theorem Follows.asymm (hn : closed = true → 3 ≤ n) (h : Follows closed n i i') :
    ¬Follows closed n i' i := by
  intro hback
  have honward := h.long hn
  replace hback := hback.long hn
  omega

theorem Follows.irrefl (hn : closed = true → 3 ≤ n) : ¬Follows closed n i i :=
  fun h => h.asymm hn h

theorem exists_follows_iff :
    (∃ i', Follows closed n i i') ↔ i < n ∧ (closed = true ∨ i + 1 ≠ n) := by
  constructor
  · rintro ⟨i', ⟨rfl, hlt⟩ | ⟨hclosed, hlast, -⟩⟩
    · exact ⟨by omega, .inr (by omega)⟩
    · exact ⟨by omega, .inl hclosed⟩
  · intro ⟨hlt, h⟩
    by_cases hlast : i + 1 = n
    · exact ⟨0, .inr ⟨h.resolve_right (absurd hlast), hlast, rfl⟩⟩
    · exact ⟨i + 1, .inl ⟨rfl, by omega⟩⟩

theorem exists_before_iff : (∃ i, Follows closed n i k) ↔ k < n ∧ (closed = true ∨ k ≠ 0) := by
  constructor
  · intro ⟨i, h⟩
    refine ⟨h.lt.2, ?_⟩
    rcases h with h | h
    · exact .inr (by omega)
    · exact .inl h.1
  · intro ⟨hlt, h⟩
    by_cases hfirst : k = 0
    · exact ⟨n - 1, .inr ⟨h.resolve_right (absurd hfirst), by omega, hfirst⟩⟩
    · exact ⟨k - 1, .inl ⟨by omega, hlt⟩⟩

end Follows

/-! ### Rows and columns -/

section Stitch
variable {s : Stitch} {rows len : Nat}

theorem follows_row_iff (hrows : 0 < rows) {i i' : Nat} :
    Follows s.closeRows rows i i' ↔ i < s.rowPairs rows ∧ i' = (i + 1) % rows := by
  unfold Stitch.rowPairs
  constructor
  · rintro (⟨rfl, hlt⟩ | ⟨hclosed, hlast, rfl⟩)
    · exact ⟨by omega, (Nat.mod_eq_of_lt hlt).symm⟩
    · rw [if_pos hclosed, hlast, Nat.mod_self]
      omega
  · rintro ⟨hlt, rfl⟩
    by_cases hlast : i + 1 = rows
    · have hclosed : s.closeRows = true := by
        by_contra hopen
        rw [if_neg hopen] at hlt
        omega
      exact .inr ⟨hclosed, hlast, by rw [hlast, Nat.mod_self]⟩
    · have hnext : i + 1 < rows := by
        split at hlt
        · omega
        · omega
      exact .inl ⟨Nat.mod_eq_of_lt hnext, by rwa [Nat.mod_eq_of_lt hnext]⟩

/- Columns are counted as rows are. -/
theorem columnPairs_eq (hlen : 0 < len) :
    s.columnPairs len = Stitch.rowPairs ⟨s.closeRows, s.wrapColumns⟩ len := by
  unfold Stitch.columnPairs Stitch.rowPairs
  split
  · exact (Nat.sub_add_cancel hlen).symm
  · rfl

theorem follows_column_iff (hlen : 0 < len) {j j' : Nat} :
    Follows s.wrapColumns len j j' ↔ j < s.columnPairs len ∧ j' = (j + 1) % len := by
  rw [columnPairs_eq hlen]
  exact follows_row_iff (s := ⟨s.closeRows, s.wrapColumns⟩) hlen

end Stitch

/- Lines of two places and rings of three are the least in which a place and the next one say where
a side runs. -/
structure Ample (s : Stitch) (rows len : Nat) : Prop where
  two_rows : 2 ≤ rows
  two_columns : 2 ≤ len
  close : s.closeRows = true → 3 ≤ rows
  wrap : s.wrapColumns = true → 3 ≤ len

theorem Ample.rows_pos {s : Stitch} {rows len : Nat} (hs : Ample s rows len) : 0 < rows :=
  Nat.lt_of_lt_of_le Nat.two_pos hs.two_rows

theorem Ample.columns_pos {s : Stitch} {rows len : Nat} (hs : Ample s rows len) : 0 < len :=
  Nat.lt_of_lt_of_le Nat.two_pos hs.two_columns

/-! ### Sides of tiles -/

/- The corners of a half of the quad between two rows and two columns. -/
def halfCorners (i i' j j' : Nat) : Half → Triangle Place
  | .first => ((i, j), (i, j'), (i', j))
  | .second => ((i, j'), (i', j'), (i', j))

theorem corners_eq_halfCorners (rows len i j : Nat) (half : Half) :
    corners rows len ((i, j), half) = halfCorners i ((i + 1) % rows) j ((j + 1) % len) half := by
  cases half with
  | first => rfl
  | second => rfl

/- The sides of all tiles, as edges from place to place. -/
def placeEdges (s : Stitch) (rows len : Nat) : List (Place × Place) :=
  (tiles s rows len ×ˢ List.finRange 3).map fun x => Triangle.side (corners rows len x.1) x.2

section Sides
variable {s : Stitch} {rows len : Nat}

theorem exists_side_iff (hrows : 0 < rows) (hlen : 0 < len) {e : Place × Place} :
    e ∈ placeEdges s rows len ↔ ∃ i i' j j' half k, Follows s.closeRows rows i i' ∧
      Follows s.wrapColumns len j j' ∧ Triangle.side (halfCorners i i' j j' half) k = e := by
  simp only [placeEdges, List.mem_map, List.mem_product, List.mem_finRange, and_true, Prod.exists,
    mem_tiles, corners_eq_halfCorners, follows_row_iff hrows, follows_column_iff hlen]
  constructor
  · rintro ⟨i, j, half, k, ⟨hi, hj⟩, rfl⟩
    exact ⟨i, _, j, _, half, k, ⟨hi, rfl⟩, ⟨hj, rfl⟩, rfl⟩
  · rintro ⟨i, _, j, _, half, k, ⟨hi, rfl⟩, ⟨hj, rfl⟩, rfl⟩
    exact ⟨i, j, half, k, ⟨hi, hj⟩, rfl⟩

/- An edge runs to the next column or back, to the next row or back, or along a diagonal, to the
next row and the column before or back. -/
theorem mem_placeEdges_iff (hrows : 0 < rows) (hlen : 0 < len) {a b c d : Nat} :
    ((a, b), (c, d)) ∈ placeEdges s rows len ↔
      a = c ∧ Follows s.wrapColumns len b d ∧ (∃ i, Follows s.closeRows rows a i) ∨
      a = c ∧ Follows s.wrapColumns len d b ∧ (∃ i, Follows s.closeRows rows i a) ∨
      b = d ∧ Follows s.closeRows rows a c ∧ (∃ j, Follows s.wrapColumns len j b) ∨
      b = d ∧ Follows s.closeRows rows c a ∧ (∃ j, Follows s.wrapColumns len b j) ∨
      Follows s.closeRows rows a c ∧ Follows s.wrapColumns len d b ∨
      Follows s.closeRows rows c a ∧ Follows s.wrapColumns len b d := by
  rw [exists_side_iff hrows hlen]
  constructor
  · rintro ⟨i, i', j, j', half, k, hi, hj, heq⟩
    match half, k with
    | .first, 0 => cases heq; exact .inl ⟨rfl, hj, i', hi⟩
    | .second, 1 => cases heq; exact .inr (.inl ⟨rfl, hj, i, hi⟩)
    | .second, 0 => cases heq; exact .inr (.inr (.inl ⟨rfl, hi, j, hj⟩))
    | .first, 2 => cases heq; exact .inr (.inr (.inr (.inl ⟨rfl, hi, j', hj⟩)))
    | .first, 1 => cases heq; exact .inr (.inr (.inr (.inr (.inl ⟨hi, hj⟩))))
    | .second, 2 => cases heq; exact .inr (.inr (.inr (.inr (.inr ⟨hi, hj⟩))))
  · rintro (⟨rfl, hj, i, hi⟩ | ⟨rfl, hj, i, hi⟩ | ⟨rfl, hi, j, hj⟩ | ⟨rfl, hi, j, hj⟩ | ⟨hi, hj⟩ |
      ⟨hi, hj⟩)
    · exact ⟨_, _, _, _, .first, 0, hi, hj, rfl⟩
    · exact ⟨_, _, _, _, .second, 1, hi, hj, rfl⟩
    · exact ⟨_, _, _, _, .second, 0, hi, hj, rfl⟩
    · exact ⟨_, _, _, _, .first, 2, hi, hj, rfl⟩
    · exact ⟨_, _, _, _, .first, 1, hi, hj, rfl⟩
    · exact ⟨_, _, _, _, .second, 2, hi, hj, rfl⟩

/-! ### No side twice -/

theorem side_halfCorners_inj (hs : Ample s rows len) {i i' j j' a a' b b' : Nat}
    {half half' : Half} {k k' : Fin 3}
    (hi : Follows s.closeRows rows i i') (hj : Follows s.wrapColumns len j j')
    (ha : Follows s.closeRows rows a a') (hb : Follows s.wrapColumns len b b')
    (h : Triangle.side (halfCorners i i' j j' half) k =
      Triangle.side (halfCorners a a' b b' half') k') :
    i = a ∧ j = b ∧ half = half' ∧ k = k' := by
  replace hi := hi.long hs.close
  replace hj := hj.long hs.wrap
  replace ha := ha.long hs.close
  replace hb := hb.long hs.wrap
  -- Each of the six kinds of side runs its own way, and none the way of another.
  cases half <;> cases half' <;> fin_cases k <;> fin_cases k' <;>
    simp only [halfCorners, Triangle.side, Prod.mk.injEq, and_true] at h ⊢ <;> omega

theorem nodup_placeEdges (hs : Ample s rows len) : (placeEdges s rows len).Nodup := by
  refine List.Nodup.map_on ?_ ((nodup_tiles s rows len).product (List.nodup_finRange 3))
  rintro ⟨⟨⟨i, j⟩, half⟩, k⟩ hx ⟨⟨⟨a, b⟩, half'⟩, k'⟩ hy heq
  obtain ⟨hi, hj⟩ := mem_tiles.1 (List.mem_product.1 hx).1
  obtain ⟨ha, hb⟩ := mem_tiles.1 (List.mem_product.1 hy).1
  simp only [corners_eq_halfCorners] at heq
  obtain ⟨rfl, rfl, rfl, rfl⟩ := side_halfCorners_inj hs
    ((follows_row_iff hs.rows_pos).2 ⟨hi, rfl⟩) ((follows_column_iff hs.columns_pos).2 ⟨hj, rfl⟩)
    ((follows_row_iff hs.rows_pos).2 ⟨ha, rfl⟩) ((follows_column_iff hs.columns_pos).2 ⟨hb, rfl⟩)
    heq
  rfl

/-! ### The rim -/

/- Where rows end, the edges along the first row, onward, and along the last, back; where columns
end, the edges along the first column, up, and along the last, down. -/
inductive Rim (s : Stitch) (rows len : Nat) : Place → Place → Prop
  | firstRow {j : Nat} (hopen : s.closeRows = false) (hj : j < s.columnPairs len) :
      Rim s rows len (0, j) (0, (j + 1) % len)
  | lastRow {j : Nat} (hopen : s.closeRows = false) (hj : j < s.columnPairs len) :
      Rim s rows len (rows - 1, (j + 1) % len) (rows - 1, j)
  | firstColumn {i : Nat} (hopen : s.wrapColumns = false) (hi : i < s.rowPairs rows) :
      Rim s rows len ((i + 1) % rows, 0) (i, 0)
  | lastColumn {i : Nat} (hopen : s.wrapColumns = false) (hi : i < s.rowPairs rows) :
      Rim s rows len (i, len - 1) ((i + 1) % rows, len - 1)

/- A side along a row needs a row after it, and the way back a row before it. -/
theorem mem_onward_row (hs : Ample s rows len) {a b d : Nat} (hj : Follows s.wrapColumns len b d) :
    ((a, b), (a, d)) ∈ placeEdges s rows len ↔ ∃ i, Follows s.closeRows rows a i := by
  rw [mem_placeEdges_iff hs.rows_pos hs.columns_pos]
  simp only [hj, hj.asymm hs.wrap, Follows.irrefl hs.close, true_and, false_and, and_false,
    or_false]

theorem mem_back_row (hs : Ample s rows len) {a b d : Nat} (hj : Follows s.wrapColumns len b d) :
    ((a, d), (a, b)) ∈ placeEdges s rows len ↔ ∃ i, Follows s.closeRows rows i a := by
  rw [mem_placeEdges_iff hs.rows_pos hs.columns_pos]
  simp only [hj, hj.asymm hs.wrap, Follows.irrefl hs.close, true_and, false_and, and_false,
    or_false, false_or]

theorem mem_onward_column (hs : Ample s rows len) {a b c : Nat}
    (hi : Follows s.closeRows rows a c) :
    ((a, b), (c, b)) ∈ placeEdges s rows len ↔ ∃ j, Follows s.wrapColumns len j b := by
  rw [mem_placeEdges_iff hs.rows_pos hs.columns_pos]
  simp only [hi, hi.asymm hs.close, Follows.irrefl hs.wrap, true_and, false_and, and_false,
    or_false, false_or]

theorem mem_back_column (hs : Ample s rows len) {a b c : Nat}
    (hi : Follows s.closeRows rows a c) :
    ((c, b), (a, b)) ∈ placeEdges s rows len ↔ ∃ j, Follows s.wrapColumns len b j := by
  rw [mem_placeEdges_iff hs.rows_pos hs.columns_pos]
  simp only [hi, hi.asymm hs.close, Follows.irrefl hs.wrap, true_and, false_and, and_false,
    or_false, false_or]

theorem rim_iff (hs : Ample s rows len) {p q : Place} :
    (p, q) ∈ placeEdges s rows len ∧ (q, p) ∉ placeEdges s rows len ↔ Rim s rows len p q := by
  have hrows := hs.two_rows
  have hlen := hs.two_columns
  have hrow := hs.rows_pos
  have hcolumn := hs.columns_pos
  constructor
  · obtain ⟨a, b⟩ := p
    obtain ⟨c, d⟩ := q
    intro ⟨h, hback⟩
    rcases (mem_placeEdges_iff hrow hcolumn).1 h with
      ⟨rfl, hj, i, hi⟩ | ⟨rfl, hj, i, hi⟩ | ⟨rfl, hi, j, hj⟩ | ⟨rfl, hi, j, hj⟩ | h | h
    · rw [mem_back_row hs hj, exists_before_iff] at hback
      obtain ⟨hpair, rfl⟩ := (follows_column_iff hcolumn).1 hj
      obtain ⟨hopen, rfl⟩ : s.closeRows = false ∧ a = 0 := by simpa [hi.lt.1] using hback
      exact .firstRow hopen hpair
    · rw [mem_onward_row hs hj, exists_follows_iff] at hback
      obtain ⟨hpair, rfl⟩ := (follows_column_iff hcolumn).1 hj
      obtain ⟨hopen, hlast⟩ : s.closeRows = false ∧ a + 1 = rows := by simpa [hi.lt.2] using hback
      obtain rfl := Nat.eq_sub_of_add_eq hlast
      exact .lastRow hopen hpair
    · rw [mem_back_column hs hi, exists_follows_iff] at hback
      obtain ⟨hpair, rfl⟩ := (follows_row_iff hrow).1 hi
      obtain ⟨hopen, hlast⟩ : s.wrapColumns = false ∧ b + 1 = len := by
        simpa [hj.lt.2] using hback
      obtain rfl := Nat.eq_sub_of_add_eq hlast
      exact .lastColumn hopen hpair
    · rw [mem_onward_column hs hi, exists_before_iff] at hback
      obtain ⟨hpair, rfl⟩ := (follows_row_iff hrow).1 hi
      obtain ⟨hopen, rfl⟩ : s.wrapColumns = false ∧ b = 0 := by simpa [hj.lt.1] using hback
      exact .firstColumn hopen hpair
    -- Along a diagonal the other half of the quad runs back.
    · have hother := (mem_placeEdges_iff hrow hcolumn).2 (.inr (.inr (.inr (.inr (.inr h)))))
      exact absurd hother hback
    · have hother := (mem_placeEdges_iff hrow hcolumn).2 (.inr (.inr (.inr (.inr (.inl h)))))
      exact absurd hother hback
  · intro h
    cases h with
    | firstRow hopen hpair =>
      have hj := (follows_column_iff (s := s) hcolumn).2 ⟨hpair, rfl⟩
      rw [mem_onward_row hs hj, mem_back_row hs hj, exists_follows_iff, exists_before_iff]
      exact ⟨⟨hrow, .inr (by omega)⟩, by simp [hopen]⟩
    | lastRow hopen hpair =>
      have hj := (follows_column_iff (s := s) hcolumn).2 ⟨hpair, rfl⟩
      rw [mem_onward_row hs hj, mem_back_row hs hj, exists_follows_iff, exists_before_iff]
      exact ⟨⟨by omega, .inr (by omega)⟩, by simp [hopen, Nat.sub_add_cancel hrow]⟩
    | firstColumn hopen hpair =>
      have hi := (follows_row_iff (s := s) hrow).2 ⟨hpair, rfl⟩
      rw [mem_onward_column hs hi, mem_back_column hs hi, exists_follows_iff, exists_before_iff]
      exact ⟨⟨hcolumn, .inr (by omega)⟩, by simp [hopen]⟩
    | lastColumn hopen hpair =>
      have hi := (follows_row_iff (s := s) hrow).2 ⟨hpair, rfl⟩
      rw [mem_onward_column hs hi, mem_back_column hs hi, exists_follows_iff, exists_before_iff]
      exact ⟨⟨by omega, .inr (by omega)⟩, by simp [hopen, Nat.sub_add_cancel hcolumn]⟩

/-! ### Edges by number -/

theorem inside_of_mem (hrows : 0 < rows) {p q : Place} (h : (p, q) ∈ placeEdges s rows len) :
    Inside rows len p ∧ Inside rows len q := by
  obtain ⟨⟨t, k⟩, ht, heq⟩ := List.mem_map.1 h
  have hinside := inside_side (List.mem_product.1 ht).1 hrows k
  rwa [heq] at hinside

theorem directedEdges_eq (hrows : 0 < rows) (hsize : rows * len ≤ UInt32.size) :
    directedEdges (strips s rows len).toArray =
      (placeEdges s rows len).map (Prod.map (number len) (number len)) := by
  rw [directedEdges, Mesh.edges_eq_map (indices_strips hrows hsize), placeEdges, List.map_map]
  refine List.map_congr_left fun x _ => ?_
  exact Triangle.side_map (number len) (corners rows len x.1) x.2

theorem mem_directedEdges (hrows : 0 < rows) (hsize : rows * len ≤ UInt32.size) {p q : Place}
    (hp : Inside rows len p) (hq : Inside rows len q) :
    (number len p, number len q) ∈ directedEdges (strips s rows len).toArray ↔
      (p, q) ∈ placeEdges s rows len := by
  rw [directedEdges_eq hrows hsize, List.mem_map]
  constructor
  · intro ⟨⟨p', q'⟩, hmem, heq⟩
    obtain ⟨hp', hq'⟩ := inside_of_mem hrows hmem
    obtain ⟨hfst, hsnd⟩ := Prod.ext_iff.1 heq
    rwa [← number_inj hp' hp hfst, ← number_inj hq' hq hsnd]
  · exact fun hmem => ⟨(p, q), hmem, rfl⟩

/-! ### Round a vertex -/

/- The tiles that meet in a place, given the row and the column before it. -/
def around (i i' j j' : Nat) : List Tile :=
  [((i', j'), .first), ((i', j), .first), ((i, j'), .first), ((i', j), .second), ((i, j), .second),
    ((i, j'), .second)]

theorem nodup_around {i i' j j' : Nat} (hrow : i ≠ i') (hcolumn : j ≠ j') :
    (around i i' j j').Nodup := by
  simp [around, hrow, hcolumn, hrow.symm, hcolumn.symm]

theorem mem_around_iff (hs : Ample s rows len) {i i' j j' : Nat}
    (hi : Follows s.closeRows rows i i') (hj : Follows s.wrapColumns len j j')
    (hrow : i' < s.rowPairs rows) (hcolumn : j' < s.columnPairs len) {t : Tile} :
    t ∈ around i i' j j' ↔
      t ∈ tiles s rows len ∧ (i', j') ∈ Triangle.toList (corners rows len t) := by
  obtain ⟨⟨a, b⟩, half⟩ := t
  have hinside : ((a, b), half) ∈ around i i' j j' → a < s.rowPairs rows ∧ b < s.columnPairs len := by
    have hbefore := ((follows_row_iff hs.rows_pos).1 hi).1
    have hleft := ((follows_column_iff hs.columns_pos).1 hj).1
    simp only [around, List.mem_cons, List.not_mem_nil, or_false, Prod.mk.injEq]
    omega
  have hmeet (ha : a < s.rowPairs rows) (hb : b < s.columnPairs len) :
      ((a, b), half) ∈ around i i' j j' ↔
        (i', j') ∈ Triangle.toList (corners rows len ((a, b), half)) := by
    have hbelow := (follows_row_iff hs.rows_pos).2 ⟨ha, rfl⟩
    have hnext := (follows_column_iff hs.columns_pos).2 ⟨hb, rfl⟩
    -- In a ring too there is one row before a row, and one column before a column.
    have hbefore : i' = (a + 1) % rows ↔ a = i :=
      ⟨fun h => (h ▸ hbelow).left_unique hi, fun h => hi.right_unique (h ▸ hbelow)⟩
    have hleft : j' = (b + 1) % len ↔ b = j :=
      ⟨fun h => (h ▸ hnext).left_unique hj, fun h => hj.right_unique (h ▸ hnext)⟩
    cases half with
    | first =>
      simp only [around, corners, Triangle.toList, List.mem_cons, List.not_mem_nil, or_false,
        Prod.mk.injEq, reduceCtorEq, and_true, and_false, hbefore, hleft]
      omega
    | second =>
      simp only [around, corners, Triangle.toList, List.mem_cons, List.not_mem_nil, or_false,
        Prod.mk.injEq, reduceCtorEq, and_true, and_false, false_or, hbefore, hleft]
      omega
  rw [mem_tiles]
  constructor
  · intro h
    obtain ⟨ha, hb⟩ := hinside h
    exact ⟨⟨ha, hb⟩, (hmeet ha hb).1 h⟩
  · rintro ⟨⟨ha, hb⟩, h⟩
    exact (hmeet ha hb).2 h

theorem number_mem_corners (hrows : 0 < rows) {p : Place} (hp : Inside rows len p) {t : Tile}
    (ht : t ∈ tiles s rows len) :
    number len p ∈ Triangle.toList (Triangle.map (number len) (corners rows len t)) ↔
      p ∈ Triangle.toList (corners rows len t) :=
  Triangle.mem_toList_map (inside_corners ht hrows) fun _ hq => number_inj hp hq

/- Where both rows and columns have neighbours before and after, six tiles meet. -/
theorem countP_corner (hs : Ample s rows len) (hsize : rows * len ≤ UInt32.size)
    {i i' j j' : Nat} (hi : Follows s.closeRows rows i i') (hj : Follows s.wrapColumns len j j')
    (hrow : i' < s.rowPairs rows) (hcolumn : j' < s.columnPairs len) :
    ((strips s rows len).countP fun f =>
      number len (i', j') ∈ Triangle.toList f.indices) = 6 := by
  have hinside : Inside rows len (i', j') := ⟨hi.lt.2, hj.lt.2⟩
  have hne : i ≠ i' := fun h => Follows.irrefl hs.close (h ▸ hi)
  have hne' : j ≠ j' := fun h => Follows.irrefl hs.wrap (h ▸ hj)
  exact countP_corner_eq (indices_strips hs.rows_pos hsize)
    (fun t ht => number_mem_corners hs.rows_pos hinside ht) (nodup_tiles s rows len)
    (nodup_around hne hne') fun t => mem_around_iff hs hi hj hrow hcolumn

/-! ### The surface of a grid -/

theorem nodup_directedEdges (hs : Ample s rows len) (hsize : rows * len ≤ UInt32.size) :
    (directedEdges (strips s rows len).toArray).Nodup := by
  rw [directedEdges_eq hs.rows_pos hsize]
  refine List.Nodup.map_on ?_ (nodup_placeEdges hs)
  intro ⟨p, q⟩ hpq ⟨p', q'⟩ hpq' heq
  obtain ⟨hp, hq⟩ := inside_of_mem hs.rows_pos hpq
  obtain ⟨hp', hq'⟩ := inside_of_mem hs.rows_pos hpq'
  obtain ⟨hfst, hsnd⟩ := Prod.ext_iff.1 heq
  exact Prod.ext (number_inj hp hp' hfst) (number_inj hq hq' hsnd)

/- The edges with a face on one side only. -/
theorem boundary_iff (hs : Ample s rows len) (hsize : rows * len ≤ UInt32.size) {e : Nat × Nat} :
    e ∈ directedEdges (strips s rows len).toArray ∧
        e.swap ∉ directedEdges (strips s rows len).toArray ↔
      ∃ p q, Rim s rows len p q ∧ e = (number len p, number len q) := by
  have hrow := hs.rows_pos
  constructor
  · intro ⟨he, hback⟩
    rw [directedEdges_eq hrow hsize] at he
    obtain ⟨⟨p, q⟩, hpq, rfl⟩ := List.mem_map.1 he
    obtain ⟨hp, hq⟩ := inside_of_mem hrow hpq
    refine ⟨p, q, (rim_iff hs).1 ⟨hpq, fun hqp => hback ?_⟩, rfl⟩
    exact (mem_directedEdges hrow hsize hq hp).2 hqp
  · rintro ⟨p, q, hrim, rfl⟩
    obtain ⟨hpq, hqp⟩ := (rim_iff hs).2 hrim
    obtain ⟨hp, hq⟩ := inside_of_mem hrow hpq
    exact ⟨(mem_directedEdges hrow hsize hp hq).2 hpq,
      fun hback => hqp ((mem_directedEdges hrow hsize hq hp).1 hback)⟩

theorem ne_of_mem_directedEdges (hs : Ample s rows len) (hsize : rows * len ≤ UInt32.size)
    {e : Nat × Nat} (he : e ∈ directedEdges (strips s rows len).toArray) : e.1 ≠ e.2 := by
  rw [directedEdges_eq hs.rows_pos hsize] at he
  obtain ⟨⟨p, q⟩, hpq, rfl⟩ := List.mem_map.1 he
  obtain ⟨hp, hq⟩ := inside_of_mem hs.rows_pos hpq
  intro h
  obtain rfl := number_inj hp hq h
  obtain ⟨a, b⟩ := p
  have hrow := Follows.irrefl (i := a) hs.close
  have hcolumn := Follows.irrefl (i := b) hs.wrap
  simp [mem_placeEdges_iff hs.rows_pos hs.columns_pos, hrow, hcolumn] at hpq

/- What closes up both ways has no rim. -/
theorem not_rim_ring {p q : Place} : ¬Rim .ring rows len p q := by
  intro h
  cases h with
  | firstRow hopen => cases hopen
  | lastRow hopen => cases hopen
  | firstColumn hopen => cases hopen
  | lastColumn hopen => cases hopen

theorem rowPairs_ring (hrows : 0 < rows) : Stitch.ring.rowPairs rows = rows :=
  Nat.sub_add_cancel hrows

theorem valence_ring (hs : Ample .ring rows len) (hsize : rows * len ≤ UInt32.size) {v : Nat}
    (hv : v < rows * len) :
    ((strips .ring rows len).countP fun f => v ∈ Triangle.toList f.indices) = 6 := by
  obtain ⟨hp, hp'⟩ := inside_place hv
  obtain ⟨i, hi⟩ : ∃ i, Follows Stitch.ring.closeRows rows i (place len v).1 :=
    exists_before_iff.2 ⟨hp, .inl rfl⟩
  obtain ⟨j, hj⟩ : ∃ j, Follows Stitch.ring.wrapColumns len j (place len v).2 :=
    exists_before_iff.2 ⟨hp', .inl rfl⟩
  have hcount := countP_corner hs hsize hi hj (by rwa [rowPairs_ring hs.rows_pos]) hp'
  rwa [Prod.mk.eta, number_place] at hcount

theorem length_ring (hrows : 0 < rows) (hsize : rows * len ≤ UInt32.size) :
    (strips .ring rows len).length = 2 * (rows * len) := by
  rw [length_strips hrows hsize, rowPairs_ring hrows]
  rfl

/- Every edge of a ring is run along both ways, so there are half as many as sides of faces. -/
theorem card_undirectedEdges_ring (hs : Ample .ring rows len) (hsize : rows * len ≤ UInt32.size)
    (hback : ∀ e ∈ directedEdges (strips .ring rows len).toArray,
      e.swap ∈ directedEdges (strips .ring rows len).toArray) :
    (undirectedEdges (strips .ring rows len).toArray).card = 3 * (rows * len) := by
  have hsides : (directedEdges (strips .ring rows len).toArray).length = 2 * (rows * len) * 3 := by
    rw [directedEdges_eq hs.rows_pos hsize, List.length_map, placeEdges, List.length_map,
      List.length_product, length_tiles, rowPairs_ring hs.rows_pos, List.length_finRange]
    rfl
  have hhalf : 2 * (undirectedEdges (strips .ring rows len).toArray).card =
      (directedEdges (strips .ring rows len).toArray).toFinset.card := by
    refine two_mul_card_image_sym2 (fun e he => ?_) fun e he => ?_
    · exact List.mem_toFinset.2 (hback e (List.mem_toFinset.1 he))
    · exact ne_of_mem_directedEdges hs hsize (List.mem_toFinset.1 he)
  rw [List.toFinset_card_of_nodup (nodup_directedEdges hs hsize), hsides] at hhalf
  omega

end Sides

/- No two faces run along an edge in the same direction, and one runs along an edge with none that
runs back on the rim alone. A ring has no rim and the counts of a torus. -/
theorem faces_manifold {s : Stitch} {rows len : Nat} (hrows : 2 ≤ rows) (hlen : 2 ≤ len)
    (hclose : s.closeRows = true → 3 ≤ rows) (hwrap : s.wrapColumns = true → 3 ≤ len)
    (hsize : rows * len ≤ UInt32.size) :
    ∃ fs, faces s rows len = .ok fs ∧ (directedEdges fs).Nodup ∧
      (∀ e, e ∈ directedEdges fs ∧ e.swap ∉ directedEdges fs ↔
        ∃ p q, Rim s rows len p q ∧ e = (number len p, number len q)) ∧
      (s = .ring →
        (∀ e ∈ directedEdges fs, e.swap ∈ directedEdges fs) ∧
        (∀ v < rows * len, (fs.toList.countP fun f => v ∈ Triangle.toList f.indices) = 6) ∧
        (undirectedEdges fs).card = 3 * (rows * len) ∧ fs.size = 2 * (rows * len) ∧
        ((rows * len : Nat) : Int) - (undirectedEdges fs).card + fs.size = 0) := by
  have hs : Ample s rows len := ⟨hrows, hlen, hclose, hwrap⟩
  refine ⟨_, faces_eq_ok hs.rows_pos hs.columns_pos hsize, nodup_directedEdges hs hsize,
    fun e => boundary_iff hs hsize, ?_⟩
  rintro rfl
  have hback : ∀ e ∈ directedEdges (strips .ring rows len).toArray,
      e.swap ∈ directedEdges (strips .ring rows len).toArray := by
    intro e he
    by_contra hopen
    obtain ⟨p, q, hrim, -⟩ := (boundary_iff hs hsize).1 ⟨he, hopen⟩
    exact not_rim_ring hrim
  have hcard := card_undirectedEdges_ring hs hsize hback
  have hcount : (strips .ring rows len).toArray.size = 2 * (rows * len) :=
    length_ring hs.rows_pos hsize
  refine ⟨hback, fun v hv => valence_ring hs hsize hv, hcard, hcount, ?_⟩
  rw [hcard, hcount]
  omega

/- The smallest ring, and a tube of two rows with an edge of its first row and one of its last. -/
theorem rings_and_tubes :
    (3 * 3 ≤ UInt32.size ∧ ∃ fs, faces .ring 3 3 = .ok fs ∧ fs.size = 18 ∧
      (undirectedEdges fs).card = 27 ∧
      ∀ v < 9, (fs.toList.countP fun f => v ∈ Triangle.toList f.indices) = 6) ∧
    (2 * 3 ≤ UInt32.size ∧ ∃ fs, faces .tube 2 3 = .ok fs ∧
      ((2, 0) ∈ directedEdges fs ∧ (0, 2) ∉ directedEdges fs) ∧
      ((3, 5) ∈ directedEdges fs ∧ (5, 3) ∉ directedEdges fs)) := by
  have hring : 3 * 3 ≤ UInt32.size := by decide
  have htube : 2 * 3 ≤ UInt32.size := by decide
  obtain ⟨fs, hfs, -, -, hclosed⟩ :=
    faces_manifold (s := .ring) (by decide) (by decide) (by decide) (by decide) hring
  obtain ⟨-, hsix, hedges, hsize, -⟩ := hclosed rfl
  obtain ⟨gs, hgs, -, hrim, -⟩ :=
    faces_manifold (s := .tube) (by decide) (by decide) (by decide) (by decide) htube
  have hlower : Rim .tube 2 3 (0, 2) (0, (2 + 1) % 3) := .firstRow rfl (by decide)
  have hupper : Rim .tube 2 3 (2 - 1, (2 + 1) % 3) (2 - 1, 2) := .lastRow rfl (by decide)
  exact ⟨⟨hring, fs, hfs, hsize, hedges, hsix⟩, htube, gs, hgs,
    (hrim (2, 0)).2 ⟨_, _, hlower, rfl⟩, (hrim (3, 5)).2 ⟨_, _, hupper, rfl⟩⟩

end ProceduralShapes.Grid
