import Mathlib.Algebra.Order.Ring.Abs
import Mathlib.Data.List.Induction
import Mathlib.Data.Rat.Floor
import Mathlib.Tactic.Linarith
import ProceduralShapes.Proofs.Exact
import ProceduralShapes.Proofs.Mesh.Weld

/-!
# Welding as first fit

Over exact scalars the lattice only saves time: a vertex is kept exactly if no vertex kept before
it lies within the tolerance, so welding agrees with the welder that compares every vertex with
all kept ones (`firstFit`). Nothing changes where the cells run out of 64 bits, since bringing
cell numbers into the range leaves adjacent cells adjacent.

It does change where the kept vertices run out of numbers. With more than `2 ^ 32` of them the
search looks at the vertex that bore a number first in the place of the one that bears it now, and
of two equal vertices both may be kept (`beyond_keeps_both`).
-/

namespace ProceduralShapes.Mesh

/-! ### Comparing with all kept vertices -/

section FirstFit
variable {K : Type} [Field K] [LinearOrder K]

/- The points are at most `eps` apart. -/
def Within (eps : K) (q p : Point K) : Prop :=
  (q.x - p.x) ^ 2 + (q.y - p.y) ^ 2 + (q.z - p.z) ^ 2 ≤ eps ^ 2

instance (eps : K) (q p : Point K) : Decidable (Within eps q p) :=
  inferInstanceAs (Decidable (_ ≤ _))

/- Takes the next point in: the points kept so far, and how many were merged away. -/
def fitNext (eps : K) (s : List (Point K) × Nat) (p : Point K) : List (Point K) × Nat :=
  if ∃ q ∈ s.1, Within eps q p then (s.1, s.2 + 1) else (s.1 ++ [p], s.2)

def firstFit (eps : K) (ps : List (Point K)) : List (Point K) × Nat :=
  ps.foldl (fitNext eps) ([], 0)

theorem firstFit_concat (eps : K) (ps : List (Point K)) (p : Point K) :
    firstFit eps (ps ++ [p]) = fitNext eps (firstFit eps ps) p := by
  rw [firstFit, List.foldl_append]
  rfl

/- Every point is kept or merged away. -/
theorem firstFit_length (eps : K) (ps : List (Point K)) :
    (firstFit eps ps).1.length + (firstFit eps ps).2 = ps.length := by
  induction ps using List.reverseRecOn with
  | nil => rfl
  | append_singleton ps p ih =>
    rw [firstFit_concat, fitNext, List.length_append]
    split
    · simp only [List.length_singleton]
      omega
    · simp only [List.length_append, List.length_singleton]
      omega

theorem length_firstFit_le (eps : K) (ps : List (Point K)) :
    (firstFit eps ps).1.length ≤ ps.length := by
  have hlength := firstFit_length eps ps
  omega

theorem length_le_fitNext (eps : K) (s : List (Point K) × Nat) (p : Point K) :
    s.1.length ≤ (fitNext eps s p).1.length := by
  unfold fitNext
  split
  · exact Nat.le_refl _
  · rw [List.length_append]
    exact Nat.le_add_right _ _

/- More points leave no fewer. -/
theorem length_firstFit_le_append (eps : K) (ps qs : List (Point K)) :
    (firstFit eps ps).1.length ≤ (firstFit eps (ps ++ qs)).1.length := by
  induction qs using List.reverseRecOn with
  | nil => rw [List.append_nil]
  | append_singleton qs q ih =>
    rw [← List.append_assoc, firstFit_concat]
    exact Nat.le_trans ih (length_le_fitNext eps _ q)

theorem firstFit_pairwise (eps : K) (ps : List (Point K)) :
    (firstFit eps ps).1.Pairwise fun q p => ¬Within eps q p := by
  induction ps using List.reverseRecOn with
  | nil => exact .nil
  | append_singleton ps p ih =>
    rw [firstFit_concat, fitNext]
    split
    · exact ih
    · rename_i hfar
      refine List.pairwise_append.2 ⟨ih, List.pairwise_singleton _ _, ?_⟩
      intro q hq p' hp' hnear
      rw [List.mem_singleton.1 hp'] at hnear
      exact hfar ⟨q, hq, hnear⟩

variable [IsStrictOrderedRing K]

/- Points that are at most `eps` apart are so on every axis. -/
theorem Within.abs_sub_le {eps : K} {q p : Point K} (heps : 0 ≤ eps) (h : Within eps q p) :
    |q.x - p.x| ≤ eps ∧ |q.y - p.y| ≤ eps ∧ |q.z - p.z| ≤ eps := by
  have hx := sq_nonneg (q.x - p.x)
  have hy := sq_nonneg (q.y - p.y)
  have hz := sq_nonneg (q.z - p.z)
  rw [Within] at h
  refine ⟨?_, ?_, ?_⟩
  · exact abs_le_of_sq_le_sq (by linarith) heps
  · exact abs_le_of_sq_le_sq (by linarith) heps
  · exact abs_le_of_sq_le_sq (by linarith) heps

end FirstFit

/-! ### The search -/

section Search
open Exact
variable {K : Type} [Field K] [LinearOrder K]

theorem nearPoint_iff_within {t : Tolerance K} {q p : Point K} :
    t.nearPoint q p = true ↔ Within t.eps q p := by
  rw [Tolerance.nearPoint, decide_eq_true_iff, Within]
  simp only [pow_two]
  rfl

variable [IsStrictOrderedRing K] [FloorRing K]

/- A point within the tolerance lies in one of the cells around. -/
theorem Within.cell {eps : K} {q p : Point K} {c : Cell} (heps : 0 < eps)
    (h : Within eps q p) (hc : Cell.ofPoint? (1 / eps) p = some c) :
    ∃ d ∈ c.neighbours, Cell.ofPoint? (1 / eps) q = some d := by
  obtain ⟨hx, hy, hz⟩ := h.abs_sub_le (le_of_lt heps)
  cases hc
  refine ⟨_, Cell.mem_neighbours.2 ⟨?_, ?_, ?_⟩, rfl⟩
  · exact clamp_floor_mem_around heps hx
  · exact clamp_floor_mem_around heps hy
  · exact clamp_floor_mem_around heps hz

/- The search misses nothing. -/
theorem find?_eq_none_iff_within {t : Tolerance K} {w : Welding K} {c : Cell} {p : Point K}
    (heps : 0 < t.eps) (h : w.Filed t) (hsize : w.kept.size ≤ UInt32.size)
    (hc : Cell.ofPoint? (1 / t.eps) p = some c) :
    w.find? t c p = none ↔ ∀ q ∈ w.kept, ¬Within t.eps q p := by
  rw [find?_eq_none_iff h hsize]
  constructor
  · intro hfar q hq hnear
    obtain ⟨d, hd, hcell⟩ := hnear.cell heps hc
    have hno := hfar q hq d hd hcell
    rw [nearPoint_iff_within.2 hnear] at hno
    cases hno
  · intro hfar q hq _ _ _
    rw [← Bool.not_eq_true, nearPoint_iff_within]
    exact hfar q hq

theorem kept_adds {t : Tolerance K} {w w' : Welding K} {p : Point K} (heps : 0 < t.eps)
    (h : w.Filed t) (hsize : w.kept.size ≤ UInt32.size) (hadds : w.Adds t p w') :
    w'.kept = if ∃ q ∈ w.kept, Within t.eps q p then w.kept else w.kept.push p := by
  cases hadds with
  | alone hcell => cases hcell
  | joined hcell hfind =>
    have hnear : ∃ q ∈ w.kept, Within t.eps q p := by
      obtain ⟨q, hkept, _, hnear⟩ := near_of_find? h hsize hfind
      exact ⟨q, Array.mem_of_getElem? hkept, nearPoint_iff_within.1 hnear⟩
    rw [if_pos hnear]
    rfl
  | filed hcell hfind =>
    have hfar : ¬∃ q ∈ w.kept, Within t.eps q p := by
      rintro ⟨q, hq, hnear⟩
      exact (find?_eq_none_iff_within heps h hsize hcell).1 hfind q hq hnear
    rw [if_neg hfar]
    rfl

end Search

/-! ### Runs -/

section Run
variable {α : Type} [Scalar α] [LE α] [DecidableLE α] [Finiteness α] [CellIndex α]

/- The state of welding after the first `i` vertices. -/
def weldingTo (t : Tolerance α) (m : Mesh α) (i : Nat) : Welding α :=
  (m.positions.take i).foldl (Welding.add t) {}

theorem filed_weldingTo (t : Tolerance α) (m : Mesh α) (i : Nat) : (m.weldingTo t i).Filed t :=
  filed_welding t { m with positions := m.positions.take i }

theorem weldingTo_succ {t : Tolerance α} {m : Mesh α} {i : Nat} {p : Point α}
    (hp : m.positions[i]? = some p) : m.weldingTo t (i + 1) = (m.weldingTo t i).add t p := by
  obtain ⟨hi, hget⟩ := Array.getElem?_eq_some_iff.1 hp
  have htake : m.positions.take (i + 1) = (m.positions.take i).push p := by
    rw [← hget]
    exact Array.extract_succ_right (Nat.succ_pos i) hi
  rw [weldingTo, htake, Array.foldl_push]
  rfl

/- Taking vertex `i` in adds it to the kept ones. -/
def Keeps (t : Tolerance α) (m : Mesh α) (i : Nat) : Prop :=
  (m.weldingTo t i).kept.size < (m.weldingTo t (i + 1)).kept.size

/- The kept vertices are those that were kept when they were taken in. -/
theorem mem_kept_iff {t : Tolerance α} {m : Mesh α} {i : Nat} (hi : i ≤ m.vertexCount)
    {q : Point α} : q ∈ (m.weldingTo t i).kept ↔
      ∃ j < i, m.Keeps t j ∧ m.positions[j]? = some q := by
  induction i with
  | zero => simp [weldingTo]
  | succ i ih =>
    obtain ⟨p, hp⟩ : ∃ p, m.positions[i]? = some p :=
      ⟨_, Array.getElem?_eq_getElem (Nat.lt_of_succ_le hi)⟩
    have hlast : (∃ j < i + 1, m.Keeps t j ∧ m.positions[j]? = some q) ↔
        (∃ j < i, m.Keeps t j ∧ m.positions[j]? = some q) ∨
          m.Keeps t i ∧ m.positions[i]? = some q := by
      simp only [Nat.lt_succ_iff_lt_or_eq, or_and_right, exists_or, exists_eq_left]
    rw [hlast, ← ih (Nat.le_of_succ_le hi), Keeps, weldingTo_succ hp, hp, Option.some_inj]
    rcases kept_of_adds (adds_add t (m.weldingTo t i) p) with hsame | hpush
    · rw [hsame]
      simp only [Nat.lt_irrefl, false_and, or_false]
    · rw [hpush, Array.mem_push, Array.size_push]
      simp only [Nat.lt_succ_self, true_and, eq_comm]

end Run

section Exact
open Exact
variable {K : Type} [Field K] [LinearOrder K] [IsStrictOrderedRing K] [FloorRing K]

theorem kept_welding {t : Tolerance K} (heps : 0 < t.eps) {m : Mesh K}
    (hsize : (firstFit t.eps m.positions.toList).1.length ≤ UInt32.size) :
    (m.welding t).kept.toList = (firstFit t.eps m.positions.toList).1 := by
  refine (welding_induction (t := t)
    (P := fun ps w => (firstFit t.eps ps.toList).1.length ≤ UInt32.size →
      w.kept.toList = (firstFit t.eps ps.toList).1) (fun _ => rfl) ?_ m).2.2 hsize
  intro ps w p w' hfiled _ ih hadds hsize
  rw [Array.toList_push] at hsize ⊢
  have hbefore := Nat.le_trans (length_firstFit_le_append t.eps ps.toList [p]) hsize
  have hkept := ih hbefore
  have hnumbers : w.kept.size ≤ UInt32.size := by
    rw [← Array.length_toList, hkept]
    exact hbefore
  rw [firstFit_concat, fitNext, ← hkept, kept_adds heps hfiled hnumbers hadds]
  simp only [Array.mem_toList_iff]
  split
  · rfl
  · exact Array.toList_push

theorem size_kept_weldingTo_le {t : Tolerance K} (heps : 0 < t.eps) {m : Mesh K}
    (hsize : (firstFit t.eps m.positions.toList).1.length ≤ UInt32.size) (i : Nat) :
    (m.weldingTo t i).kept.size ≤ UInt32.size := by
  have htake : (m.positions.take i).toList = m.positions.toList.take i := by simp
  have hlength : (firstFit t.eps (m.positions.take i).toList).1.length ≤ UInt32.size := by
    refine Nat.le_trans ?_ hsize
    have happend := length_firstFit_le_append t.eps (m.positions.toList.take i)
      (m.positions.toList.drop i)
    rwa [List.take_append_drop, ← htake] at happend
  have hkept := kept_welding heps (m := { m with positions := m.positions.take i }) hlength
  rw [← Array.length_toList]
  exact Nat.le_trans (Nat.le_of_eq (congrArg List.length hkept)) hlength

theorem keeps_iff_far {t : Tolerance K} {m : Mesh K} {i : Nat} {p : Point K} (heps : 0 < t.eps)
    (hsize : (firstFit t.eps m.positions.toList).1.length ≤ UInt32.size)
    (hp : m.positions[i]? = some p) :
    m.Keeps t i ↔ ∀ q ∈ (m.weldingTo t i).kept, ¬Within t.eps q p := by
  rw [Keeps, weldingTo_succ hp, kept_adds heps (filed_weldingTo t m i)
    (size_kept_weldingTo_le heps hsize i) (adds_add t _ p)]
  split
  · rename_i hnear
    obtain ⟨q, hq, hnear⟩ := hnear
    constructor
    · intro hlt
      exact absurd hlt (Nat.lt_irrefl _)
    · intro hfar
      exact absurd hnear (hfar q hq)
  · rename_i hfar
    rw [Array.size_push]
    constructor
    · intro _ q hq hnear
      exact hfar ⟨q, hq, hnear⟩
    · intro _
      exact Nat.lt_succ_self _

/- A vertex is kept exactly if no vertex kept before it is within the tolerance. -/
theorem keeps_iff {t : Tolerance K} {m : Mesh K} {i : Nat} {p : Point K} (heps : 0 < t.eps)
    (hsize : (firstFit t.eps m.positions.toList).1.length ≤ UInt32.size)
    (hp : m.positions[i]? = some p) :
    m.Keeps t i ↔ ∀ j q, j < i → m.Keeps t j → m.positions[j]? = some q → ¬Within t.eps q p := by
  have hi : i ≤ m.vertexCount := Nat.le_of_lt (lt_size_of_getElem? hp)
  rw [keeps_iff_far heps hsize hp]
  constructor
  · intro hfar j q hj hkept hq
    exact hfar q ((mem_kept_iff hi).2 ⟨j, hj, hkept, hq⟩)
  · intro hfar q hq
    obtain ⟨j, hj, hkept, hjq⟩ := (mem_kept_iff hi).1 hq
    exact hfar j q hj hkept hjq

/- While comparing every vertex with all kept ones keeps no more than there are numbers for,
welding does the same. -/
theorem weld_eq_firstFit (t : Tolerance K) (m : Mesh K) (heps : 0 < t.eps)
    (hsize : (firstFit t.eps m.positions.toList).1.length ≤ UInt32.size) :
    (m.weld t).map (fun r => (r.1.positions.toList, r.2)) =
        (if m.cornersInRange then .ok (firstFit t.eps m.positions.toList)
          else .error .danglingCorner) ∧
      (m.welding t).kept.toList = (firstFit t.eps m.positions.toList).1 ∧
      (m.welding t).kept.toList.Pairwise (fun q p => ¬Within t.eps q p) ∧
      ∀ i p, m.positions[i]? = some p →
        (m.Keeps t i ↔
          ∀ j q, j < i → m.Keeps t j → m.positions[j]? = some q → ¬Within t.eps q p) := by
  have hkept : (m.welding t).kept.toList = (firstFit t.eps m.positions.toList).1 :=
    kept_welding heps hsize
  refine ⟨?_, hkept, ?_, fun i p hp => keeps_iff heps hsize hp⟩
  · have hweldable : weldable t := ⟨rfl, heps⟩
    rw [weld, if_pos hweldable]
    split
    · have hlength := firstFit_length t.eps m.positions.toList
      have hmerged : m.vertexCount - (m.welding t).kept.size =
          (firstFit t.eps m.positions.toList).2 := by
        rw [← Array.length_toList, hkept, vertexCount, ← Array.length_toList, ← hlength]
        exact Nat.add_sub_cancel_left _ _
      exact congrArg Except.ok (Prod.ext hkept hmerged)
    · rfl
  · rw [hkept]
    exact firstFit_pairwise t.eps m.positions.toList

/- Near vertices on the two sides of a cell border, and some past the last cell. -/
def straddling : Mesh ℚ :=
  ⟨#[⟨0, 0, 0⟩, ⟨-1 / 4, 0, 0⟩, ⟨2 ^ 70, 0, 0⟩, ⟨2 ^ 70 + 1, 0, 0⟩, ⟨2 ^ 70 + 1 / 4, 0, 0⟩],
    #[⟨0, 2, 3⟩]⟩

theorem straddling_firstFit : 0 < (⟨1 / 2⟩ : Tolerance ℚ).eps ∧
    (firstFit (1 / 2) straddling.positions.toList).1.length ≤ UInt32.size ∧
    (straddling.weld ⟨1 / 2⟩).map (fun r => (r.1.positions.toList, r.2)) =
      .ok ([⟨0, 0, 0⟩, ⟨2 ^ 70, 0, 0⟩, ⟨2 ^ 70 + 1, 0, 0⟩], 2) := by
  have heps : 0 < (⟨1 / 2⟩ : Tolerance ℚ).eps := by decide +kernel
  have hsize : (firstFit (1 / 2) straddling.positions.toList).1.length ≤ UInt32.size :=
    Nat.le_trans (length_firstFit_le _ _) (by decide +kernel)
  refine ⟨heps, hsize, ?_⟩
  have hweld := (weld_eq_firstFit ⟨1 / 2⟩ straddling heps hsize).1
  have hcorners : straddling.cornersInRange = true := by decide +kernel
  rw [hweld, if_pos hcorners]
  decide +kernel

end Exact

/-! ### More vertices than numbers -/

section Beyond
open Exact

theorem weld_of_all_kept {t : Tolerance ℚ} {m : Mesh ℚ} (ht : weldable t)
    (hm : m.cornersInRange = true) (hkept : (m.welding t).kept = m.positions) :
    (m.weld t).map (fun r => (r.1.positions.toList, r.2)) = .ok (m.positions.toList, 0) := by
  have hmerged : m.vertexCount - (m.welding t).kept.size = 0 := by
    rw [hkept]
    exact Nat.sub_self _
  rw [weld_of_weldable ht hm]
  exact congrArg Except.ok (Prod.ext (congrArg Array.toList hkept) hmerged)

def halfUnit : Tolerance ℚ := ⟨1 / 2⟩

theorem halfUnit_pos : 0 < halfUnit.eps := by
  norm_num [halfUnit]

def rowVertex (i : Nat) : Point ℚ := ⟨i, 0, 0⟩

/- So many vertices in a row, one apart. -/
def row (n : Nat) : Array (Point ℚ) := (Array.range n).map rowVertex

theorem row_zero : row 0 = #[] := by
  simp [row]

theorem row_succ (n : Nat) : row (n + 1) = (row n).push (rowVertex n) := by
  simp [row, Array.range_succ]

theorem getElem?_row_eq_some {n k : Nat} {q : Point ℚ} :
    (row n)[k]? = some q ↔ k < n ∧ rowVertex k = q := by
  rw [row, Array.getElem?_map, Array.getElem?_range]
  split
  · rename_i hk
    simp [hk]
  · rename_i hk
    simp [hk]

theorem within_rowVertex_iff {j k : Nat} :
    Within halfUnit.eps (rowVertex j) (rowVertex k) ↔ j = k := by
  constructor
  · intro h
    have hx : |(j : ℚ) - k| ≤ 1 / 2 := (h.abs_sub_le (by norm_num [halfUnit])).1
    have hlt : |(j : ℤ) - k| < 1 := by
      rw [← Int.cast_lt (R := ℚ)]
      push_cast
      linarith
    have hzero : (j : ℤ) - k = 0 := Int.abs_lt_one_iff.1 hlt
    omega
  · rintro rfl
    norm_num [Within, halfUnit]

theorem cell_rowVertex (i : Nat) : Cell.ofPoint? (1 / halfUnit.eps) (rowVertex i) =
    some ⟨Cell.clamp (2 * i), Cell.clamp 0, Cell.clamp 0⟩ := by
  have hx : ⌊(i : ℚ) * (1 / (1 / 2))⌋ = 2 * i := by
    rw [one_div_one_div, mul_comm]
    exact_mod_cast Int.floor_natCast (2 * i)
  have hzero : ⌊(0 : ℚ) * (1 / (1 / 2))⌋ = 0 := by
    rw [zero_mul, Int.floor_zero]
  have hcell : Cell.ofPoint? (1 / halfUnit.eps) (rowVertex i) =
    some ⟨Cell.clamp ⌊(i : ℚ) * (1 / (1 / 2))⌋, Cell.clamp ⌊(0 : ℚ) * (1 / (1 / 2))⌋,
      Cell.clamp ⌊(0 : ℚ) * (1 / (1 / 2))⌋⟩ := rfl
  rw [hcell, hx, hzero]

/- In a row only the vertex itself lies in the cells around a vertex. -/
theorem eq_of_cell_mem_neighbours {k n : Nat} {c d : Cell} (hn : n ≤ UInt32.size)
    (hk : Cell.ofPoint? (1 / halfUnit.eps) (rowVertex k) = some d)
    (hc : Cell.ofPoint? (1 / halfUnit.eps) (rowVertex n) = some c) (hd : d ∈ c.neighbours) :
    k = n := by
  rw [cell_rowVertex] at hk hc
  cases hk
  cases hc
  have hx := (Cell.mem_neighbours.1 hd).1
  rw [Cell.mem_around, Cell.toInt_clamp, Cell.toInt_clamp] at hx
  have hmin : Int64.minValue.toInt = -2 ^ 63 := rfl
  have hmax : Int64.maxValue.toInt = 2 ^ 63 - 1 := rfl
  have hsize : UInt32.size = 2 ^ 32 := rfl
  omega

/- A vertex of the row that is taken in behind a row is kept, unless the search looks at the vertex
that bears its number. -/
theorem kept_adds_row {w w' : Welding ℚ} {m n : Nat} (hn : n ≤ UInt32.size) (h : w.Filed halfUnit)
    (hkept : w.kept = row m) (hadds : w.Adds halfUnit (rowVertex n) w') :
    w'.kept = (row m).push (rowVertex n) ∨
      n < m ∧ w.isNear halfUnit (rowVertex n) n.toUInt32 = true := by
  cases hadds with
  | alone hcell => cases hcell
  | joined hcell hfind =>
    obtain ⟨hnear, d, hd, k, q, hq, hk, rfl⟩ := number_of_find? h hfind
    rw [hkept] at hq
    obtain ⟨hlt, rfl⟩ := getElem?_row_eq_some.1 hq
    rw [eq_of_cell_mem_neighbours hn hk hcell hd] at hlt hnear
    exact .inr ⟨hlt, hnear⟩
  | filed hcell hfind =>
    rw [← hkept]
    exact .inl rfl

theorem welding_push {t : Tolerance ℚ} (ps : Array (Point ℚ)) (p : Point ℚ) :
    ({ positions := ps.push p } : Mesh ℚ).welding t =
      (({ positions := ps } : Mesh ℚ).welding t).add t p := Array.foldl_push

theorem kept_welding_row {n : Nat} (hn : n ≤ UInt32.size + 1) :
    (({ positions := row n } : Mesh ℚ).welding halfUnit).kept = row n := by
  induction n with
  | zero =>
    rw [row_zero]
    rfl
  | succ n ih =>
    have hkept := ih (Nat.le_of_succ_le hn)
    rw [row_succ, welding_push]
    rcases kept_adds_row (Nat.le_of_succ_le_succ hn) (filed_welding halfUnit _) hkept
      (adds_add halfUnit _ (rowVertex n)) with hpush | ⟨hlt, _⟩
    · exact hpush
    · exact absurd hlt (Nat.lt_irrefl n)

theorem firstFit_row (n : Nat) : firstFit halfUnit.eps (row n).toList = ((row n).toList, 0) := by
  induction n with
  | zero =>
    rw [row_zero]
    rfl
  | succ n ih =>
    have hfar : ¬∃ q ∈ (row n).toList, Within halfUnit.eps q (rowVertex n) := by
      rintro ⟨q, hq, hnear⟩
      obtain ⟨k, hk⟩ := Array.mem_iff_getElem?.1 (Array.mem_toList_iff.1 hq)
      obtain ⟨hlt, rfl⟩ := getElem?_row_eq_some.1 hk
      exact Nat.ne_of_lt hlt (within_rowVertex_iff.1 hnear)
    rw [row_succ, Array.toList_push, firstFit_concat, ih, fitNext, if_neg hfar]

theorem firstFit_row_push {k n : Nat} (hk : k < n) :
    firstFit halfUnit.eps ((row n).toList ++ [rowVertex k]) = ((row n).toList, 1) := by
  have hmem : rowVertex k ∈ (row n).toList :=
    Array.mem_toList_iff.2 (Array.mem_of_getElem? (getElem?_row_eq_some.2 ⟨hk, rfl⟩))
  have hnear : ∃ q ∈ (row n).toList, Within halfUnit.eps q (rowVertex k) :=
    ⟨_, hmem, within_rowVertex_iff.2 rfl⟩
  rw [firstFit_concat, firstFit_row, fitNext, if_pos hnear]

/- One vertex more in a row than there are numbers, and the last of them again. -/
def beyond : Mesh ℚ := { positions := (row (UInt32.size + 1)).push (rowVertex UInt32.size) }

theorem toList_beyond : beyond.positions.toList =
    (row (UInt32.size + 1)).toList ++ [rowVertex UInt32.size] := Array.toList_push

theorem cornersInRange_beyond : beyond.cornersInRange = true :=
  cornersInRange_iff.2 fun _ hf => absurd hf (Array.not_mem_empty _)

/- The last vertex bears the number of the first. -/
theorem kept_welding_beyond : (beyond.welding halfUnit).kept = beyond.positions := by
  have hkept := kept_welding_row (Nat.le_refl (UInt32.size + 1))
  have hwelding : beyond.welding halfUnit =
      (({ positions := row (UInt32.size + 1) } : Mesh ℚ).welding halfUnit).add halfUnit
        (rowVertex UInt32.size) := welding_push _ _
  rw [hwelding]
  rcases kept_adds_row (Nat.le_refl UInt32.size) (filed_welding halfUnit _) hkept
    (adds_add halfUnit _ (rowVertex UInt32.size)) with hpush | ⟨_, hnear⟩
  · exact hpush
  · obtain ⟨q, hq, hnear⟩ := isNear_iff.1 hnear
    rw [hkept] at hq
    obtain ⟨_, rfl⟩ := getElem?_row_eq_some.1 hq
    have hsame := within_rowVertex_iff.1 (nearPoint_iff_within.1 hnear)
    exact absurd hsame (by decide)

/- Two near vertices, and a face with a corner that is no vertex. -/
def loose : Mesh ℚ := ⟨#[⟨0, 0, 0⟩, ⟨1 / 2, 0, 0⟩], #[⟨0, 0, 7⟩]⟩

/- The last two vertices are the same, and welding keeps both where comparing every vertex with all
kept ones keeps one. There is no welding at all of a mesh with a corner that is no vertex. -/
theorem beyond_keeps_both :
    (beyond.weld halfUnit).map (fun r => (r.1.positions.toList, r.2)) =
        .ok ((row (UInt32.size + 1)).toList ++ [rowVertex UInt32.size], 0) ∧
      firstFit halfUnit.eps beyond.positions.toList = ((row (UInt32.size + 1)).toList, 1) ∧
      loose.weld ⟨1⟩ = .error .danglingCorner ∧
      firstFit 1 loose.positions.toList = ([⟨0, 0, 0⟩], 1) := by
  refine ⟨?_, ?_, ?_, ?_⟩
  · rw [← toList_beyond]
    exact weld_of_all_kept ⟨rfl, halfUnit_pos⟩ cornersInRange_beyond kept_welding_beyond
  · rw [toList_beyond]
    exact firstFit_row_push (Nat.lt_succ_self UInt32.size)
  · have hweldable : weldable (⟨1⟩ : Tolerance ℚ) := ⟨rfl, one_pos⟩
    have hcorners : ¬loose.cornersInRange = true := by decide +kernel
    rw [weld, if_pos hweldable, if_neg hcorners]
  · decide +kernel

end Beyond

end ProceduralShapes.Mesh
