import Mathlib.Data.Finset.Prod
import Mathlib.Order.Interval.Finset.Nat
import Mathlib.Tactic.FinCases
import ProceduralShapes.Proofs.Mesh.Cluster
import ProceduralShapes.Proofs.Mesh.Edges

/-!
# Tubes drawn together at their ends

A tube of `slices + 1` rows whose first and last rows are each drawn together to a point is a
sphere. Of the quads along the first row only the second half keeps three corners, along the last
row only the first half (`survives`). No two sides of the surviving halves run between the same
places (`side_inj`), and every side has one that runs the other way (`exists_mate`): across the
diagonal of its quad, in the next column or in the next row, and at a pole to the neighbour there.
-/

namespace ProceduralShapes.Grid

/-! ### Places drawn together -/

/- The places become one when the first row and the last are each drawn together. -/
def Meets (slices : Nat) (p q : Place) : Prop :=
  p.1 = q.1 ∧ (p.1 = 0 ∨ p.1 = slices ∨ p.2 = q.2)

/- One place for all that become one. -/
def pinch (slices : Nat) (p : Place) : Place := if p.1 = 0 ∨ p.1 = slices then (p.1, 0) else p

theorem Meets.refl (slices : Nat) (p : Place) : Meets slices p p := ⟨rfl, .inr (.inr rfl)⟩

theorem meets_first (slices j j' : Nat) : Meets slices (0, j) (0, j') := ⟨rfl, .inl rfl⟩

theorem meets_last {slices i : Nat} (hi : i = slices) (j j' : Nat) :
    Meets slices (i, j) (i, j') := ⟨rfl, .inr (.inl hi)⟩

theorem pinch_eq_iff {slices : Nat} {p q : Place} :
    pinch slices p = pinch slices q ↔ Meets slices p q := by
  obtain ⟨i, j⟩ := p
  obtain ⟨i', j'⟩ := q
  unfold pinch Meets
  split
  · split
    · simp only [Prod.mk.injEq, and_true]
      omega
    · simp only [Prod.mk.injEq]
      omega
  · split
    · simp only [Prod.mk.injEq]
      omega
    · simp only [Prod.mk.injEq]
      omega

/- Every place is one with itself, a pole being one place. -/
theorem card_pinched {slices len : Nat} (hslices : 1 ≤ slices) (hlen : 1 ≤ len) :
    ((Finset.range ((slices + 1) * len)).image (pinch slices ∘ place len)).card =
      (slices - 1) * len + 2 := by
  have himage : (Finset.range ((slices + 1) * len)).image (pinch slices ∘ place len) =
      {(0, 0), (slices, 0)} ∪ Finset.Ico 1 slices ×ˢ Finset.range len := by
    ext ⟨i, j⟩
    simp only [Finset.mem_image, Finset.mem_range, Function.comp_apply, Finset.mem_union,
      Finset.mem_insert, Finset.mem_singleton, Finset.mem_product, Finset.mem_Ico, Prod.mk.injEq]
    constructor
    · intro ⟨k, hk, hp⟩
      have hinside := inside_place hk
      generalize place len k = p at hp hinside
      obtain ⟨hrow, hcolumn⟩ := hinside
      unfold pinch at hp
      split at hp
      · rename_i hpole
        cases hp
        omega
      · rename_i hpole
        subst hp
        omega
    · intro h
      have hinside : Inside (slices + 1) len (i, j) := by
        constructor
        · simp only
          omega
        · simp only
          omega
      refine ⟨number len (i, j), number_lt hinside, ?_⟩
      rw [place_number hinside, pinch]
      split
      · simp only [Prod.mk.injEq, true_and]
        omega
      · rfl
  have hpoles : ({(0, 0), (slices, 0)} : Finset Place).card = 2 :=
    Finset.card_pair fun h => by
      rw [Prod.mk.injEq] at h
      omega
  have hapart : Disjoint ({(0, 0), (slices, 0)} : Finset Place)
      (Finset.Ico 1 slices ×ˢ Finset.range len) := by
    rw [Finset.disjoint_left]
    intro ⟨i, j⟩ hpole hbelt
    simp only [Finset.mem_insert, Finset.mem_singleton, Prod.mk.injEq, Finset.mem_product,
      Finset.mem_Ico] at hpole hbelt
    omega
  rw [himage, Finset.card_union_of_disjoint hapart, hpoles, Finset.card_product, Nat.card_Ico,
    Finset.card_range, Nat.add_comm]

/-! ### Neighbouring columns -/

theorem next_cases {len j : Nat} (hj : j < len) :
    (j + 1) % len = j + 1 ∧ j + 1 < len ∨ (j + 1) % len = 0 ∧ j + 1 = len := by
  rcases Nat.lt_or_eq_of_le (Nat.succ_le_of_lt hj) with hlt | heq
  · exact .inl ⟨Nat.mod_eq_of_lt hlt, hlt⟩
  · exact .inr ⟨by rw [show j + 1 = len from heq, Nat.mod_self], heq⟩

theorem exists_column_before {len j : Nat} (hj : j < len) :
    ∃ j' < len, (j' + 1) % len = j := by
  cases j with
  | zero =>
    refine ⟨len - 1, by omega, ?_⟩
    rw [Nat.sub_add_cancel hj, Nat.mod_self]
  | succ j => exact ⟨j, by omega, Nat.mod_eq_of_lt hj⟩

/-! ### Surviving halves -/

/- Whether a half keeps three corners: the first half loses one at the first row, the second half
at the last. -/
def survives (slices : Nat) : Tile → Bool
  | ((i, _), .first) => i ≠ 0
  | ((i, _), .second) => i + 1 ≠ slices

def survivors (slices len : Nat) : List Tile :=
  (tiles .tube (slices + 1) len).filter (survives slices)

theorem mem_survivors_first {slices len i j : Nat} :
    ((i, j), .first) ∈ survivors slices len ↔ (i < slices ∧ j < len) ∧ i ≠ 0 := by
  rw [survivors, List.mem_filter, mem_tiles, survives, decide_eq_true_eq]
  rfl

theorem mem_survivors_second {slices len i j : Nat} :
    ((i, j), .second) ∈ survivors slices len ↔ (i < slices ∧ j < len) ∧ i + 1 ≠ slices := by
  rw [survivors, List.mem_filter, mem_tiles, survives, decide_eq_true_eq]
  rfl

theorem nodup_survivors (slices len : Nat) : (survivors slices len).Nodup :=
  (nodup_tiles .tube (slices + 1) len).filter _

theorem length_survivors (slices len : Nat) :
    (survivors slices len).length = 2 * len * (slices - 1) := by
  have hsplit : (survivors slices len).toFinset =
      (Finset.Ico 1 slices ×ˢ Finset.range len) ×ˢ {Half.first} ∪
        (Finset.range (slices - 1) ×ˢ Finset.range len) ×ˢ {Half.second} := by
    ext ⟨⟨i, j⟩, half⟩
    rw [List.mem_toFinset]
    cases half with
    | first =>
      simp only [mem_survivors_first, Finset.mem_union, Finset.mem_product, Finset.mem_singleton,
        Finset.mem_Ico, Finset.mem_range, reduceCtorEq, and_true, and_false, or_false]
      omega
    | second =>
      simp only [mem_survivors_second, Finset.mem_union, Finset.mem_product, Finset.mem_singleton,
        Finset.mem_Ico, Finset.mem_range, reduceCtorEq, and_true, and_false, false_or]
      omega
  have hapart : Disjoint ((Finset.Ico 1 slices ×ˢ Finset.range len) ×ˢ {Half.first})
      ((Finset.range (slices - 1) ×ˢ Finset.range len) ×ˢ {Half.second}) := by
    rw [Finset.disjoint_left]
    intro ⟨p, half⟩ hfirst hsecond
    rw [Finset.mem_product, Finset.mem_singleton] at hfirst hsecond
    rw [hfirst.2] at hsecond
    cases hsecond.2
  rw [← List.toFinset_card_of_nodup (nodup_survivors slices len), hsplit,
    Finset.card_union_of_disjoint hapart]
  simp only [Finset.card_product, Finset.card_singleton, Finset.card_range, Nat.card_Ico,
    Nat.mul_one]
  rw [← Nat.two_mul, Nat.mul_assoc, Nat.mul_comm len]

/-! ### Sides of the surviving halves -/

theorem corners_first {slices len i j : Nat} (hi : i < slices) :
    corners (slices + 1) len ((i, j), .first) = ((i, j), (i, (j + 1) % len), (i + 1, j)) := by
  rw [corners, Nat.mod_eq_of_lt (Nat.succ_lt_succ hi)]

theorem corners_second {slices len i j : Nat} (hi : i < slices) :
    corners (slices + 1) len ((i, j), .second) =
      ((i, (j + 1) % len), (i + 1, (j + 1) % len), (i + 1, j)) := by
  rw [corners, Nat.mod_eq_of_lt (Nat.succ_lt_succ hi)]

/- The side of a half. -/
def sideOf (slices len : Nat) (t : Tile) (k : Fin 3) : Place × Place :=
  Triangle.side (corners (slices + 1) len t) k

/- The two sides run between the same places. -/
def Parallel (slices : Nat) (e e' : Place × Place) : Prop :=
  Meets slices e.1 e'.1 ∧ Meets slices e.2 e'.2

section Sides
variable {slices len i j i' j' : Nat} {k k' : Fin 3}

theorem first_side_inj (ht : ((i, j), .first) ∈ survivors slices len)
    (ht' : ((i', j'), .first) ∈ survivors slices len)
    (h : Parallel slices (sideOf slices len ((i, j), .first) k)
      (sideOf slices len ((i', j'), .first) k')) : i = i' ∧ j = j' ∧ k = k' := by
  obtain ⟨⟨hi, hj⟩, hsome⟩ := mem_survivors_first.1 ht
  obtain ⟨⟨hi', hj'⟩, hsome'⟩ := mem_survivors_first.1 ht'
  have hnext := next_cases hj
  have hnext' := next_cases hj'
  rw [sideOf, corners_first hi, sideOf, corners_first hi'] at h
  fin_cases k <;> fin_cases k' <;>
    simp only [Parallel, Meets, Triangle.side, and_true] at h ⊢ <;> omega

theorem second_side_inj (ht : ((i, j), .second) ∈ survivors slices len)
    (ht' : ((i', j'), .second) ∈ survivors slices len)
    (h : Parallel slices (sideOf slices len ((i, j), .second) k)
      (sideOf slices len ((i', j'), .second) k')) : i = i' ∧ j = j' ∧ k = k' := by
  obtain ⟨⟨hi, hj⟩, hsome⟩ := mem_survivors_second.1 ht
  obtain ⟨⟨hi', hj'⟩, hsome'⟩ := mem_survivors_second.1 ht'
  have hnext := next_cases hj
  have hnext' := next_cases hj'
  rw [sideOf, corners_second hi, sideOf, corners_second hi'] at h
  fin_cases k <;> fin_cases k' <;>
    simp only [Parallel, Meets, Triangle.side, and_true] at h ⊢ <;> omega

/- With two columns, the next of the next is the first again, and the row side of a first half
would be one of a second half. -/
theorem first_side_ne_second (hlen : 3 ≤ len) (ht : ((i, j), .first) ∈ survivors slices len)
    (ht' : ((i', j'), .second) ∈ survivors slices len) :
    ¬Parallel slices (sideOf slices len ((i, j), .first) k)
      (sideOf slices len ((i', j'), .second) k') := by
  intro h
  obtain ⟨⟨hi, hj⟩, hsome⟩ := mem_survivors_first.1 ht
  obtain ⟨⟨hi', hj'⟩, hsome'⟩ := mem_survivors_second.1 ht'
  have hnext := next_cases hj
  have hnext' := next_cases hj'
  rw [sideOf, corners_first hi, sideOf, corners_second hi'] at h
  fin_cases k <;> fin_cases k' <;> simp only [Parallel, Meets, Triangle.side] at h <;> omega

end Sides

theorem Parallel.symm {slices : Nat} {e e' : Place × Place} (h : Parallel slices e e') :
    Parallel slices e' e := by
  obtain ⟨⟨hrow, hstart⟩, hrow', hend⟩ := h
  exact ⟨⟨hrow.symm, by omega⟩, hrow'.symm, by omega⟩

theorem side_inj {slices len : Nat} (hlen : 3 ≤ len) {t t' : Tile}
    (ht : t ∈ survivors slices len) (ht' : t' ∈ survivors slices len) {k k' : Fin 3}
    (h : Parallel slices (sideOf slices len t k) (sideOf slices len t' k')) :
    t = t' ∧ k = k' := by
  obtain ⟨⟨i, j⟩, half⟩ := t
  obtain ⟨⟨i', j'⟩, half'⟩ := t'
  cases half with
  | first =>
    cases half' with
    | first =>
      obtain ⟨rfl, rfl, hside⟩ := first_side_inj ht ht' h
      exact ⟨rfl, hside⟩
    | second => exact absurd h (first_side_ne_second hlen ht ht')
  | second =>
    cases half' with
    | first => exact absurd h.symm (first_side_ne_second hlen ht' ht)
    | second =>
      obtain ⟨rfl, rfl, hside⟩ := second_side_inj ht ht' h
      exact ⟨rfl, hside⟩

/-! ### Mates -/

/- A surviving half with a side that runs along `e` the other way. -/
def HasMate (slices len : Nat) (e : Place × Place) : Prop :=
  ∃ t ∈ survivors slices len, ∃ k, Parallel slices (sideOf slices len t k) e.swap

section Mates
variable {slices len i j : Nat} {e : Place × Place}

theorem hasMate_of_first (ht : ((i, j), .first) ∈ survivors slices len) (k : Fin 3)
    (h : Parallel slices (Triangle.side ((i, j), (i, (j + 1) % len), (i + 1, j)) k) e.swap) :
    HasMate slices len e := by
  refine ⟨_, ht, k, ?_⟩
  rw [sideOf, corners_first (mem_survivors_first.1 ht).1.1]
  exact h

theorem hasMate_of_second (ht : ((i, j), .second) ∈ survivors slices len) (k : Fin 3)
    (h : Parallel slices (Triangle.side ((i, (j + 1) % len), (i + 1, (j + 1) % len), (i + 1, j)) k)
      e.swap) : HasMate slices len e := by
  refine ⟨_, ht, k, ?_⟩
  rw [sideOf, corners_second (mem_survivors_second.1 ht).1.1]
  exact h

theorem hasMate_first (ht : ((i, j), .first) ∈ survivors slices len) (k : Fin 3) :
    HasMate slices len (sideOf slices len ((i, j), .first) k) := by
  obtain ⟨⟨hi, hj⟩, hsome⟩ := mem_survivors_first.1 ht
  rw [sideOf, corners_first hi]
  match k with
  | 0 =>
    -- Along a row: the row side of the half above.
    obtain ⟨i, rfl⟩ := Nat.exists_eq_succ_of_ne_zero hsome
    have habove : ((i, j), .second) ∈ survivors slices len :=
      mem_survivors_second.2 ⟨⟨Nat.lt_of_succ_lt hi, hj⟩, Nat.ne_of_lt hi⟩
    exact hasMate_of_second habove 1 ⟨.refl _ _, .refl _ _⟩
  | 1 =>
    -- Down the diagonal: the other half of the quad, at the last row the next first half.
    by_cases hlast : i + 1 = slices
    · have hnext : (j + 1) % len < len := Nat.mod_lt _ (Nat.zero_lt_of_lt hj)
      have hright : ((i, (j + 1) % len), .first) ∈ survivors slices len :=
        mem_survivors_first.2 ⟨⟨hi, hnext⟩, hsome⟩
      exact hasMate_of_first hright 2 ⟨meets_last hlast _ _, .refl _ _⟩
    · have hsame : ((i, j), .second) ∈ survivors slices len :=
        mem_survivors_second.2 ⟨⟨hi, hj⟩, hlast⟩
      exact hasMate_of_second hsame 2 ⟨.refl _ _, .refl _ _⟩
  | 2 =>
    -- Up a column: the half before, at the last row its diagonal.
    obtain ⟨j', hj', rfl⟩ := exists_column_before hj
    by_cases hlast : i + 1 = slices
    · have hleft : ((i, j'), .first) ∈ survivors slices len :=
        mem_survivors_first.2 ⟨⟨hi, hj'⟩, hsome⟩
      exact hasMate_of_first hleft 1 ⟨.refl _ _, meets_last hlast _ _⟩
    · have hleft : ((i, j'), .second) ∈ survivors slices len :=
        mem_survivors_second.2 ⟨⟨hi, hj'⟩, hlast⟩
      exact hasMate_of_second hleft 0 ⟨.refl _ _, .refl _ _⟩

theorem hasMate_second (ht : ((i, j), .second) ∈ survivors slices len) (k : Fin 3) :
    HasMate slices len (sideOf slices len ((i, j), .second) k) := by
  obtain ⟨⟨hi, hj⟩, hsome⟩ := mem_survivors_second.1 ht
  rw [sideOf, corners_second hi]
  match k with
  | 0 =>
    -- Down a column: the half after, at the first row its diagonal.
    have hnext : (j + 1) % len < len := Nat.mod_lt _ (Nat.zero_lt_of_lt hj)
    by_cases hfirst : i = 0
    · subst hfirst
      have hright : ((0, (j + 1) % len), .second) ∈ survivors slices len :=
        mem_survivors_second.2 ⟨⟨hi, hnext⟩, hsome⟩
      exact hasMate_of_second hright 2 ⟨.refl _ _, meets_first _ _ _⟩
    · have hright : ((i, (j + 1) % len), .first) ∈ survivors slices len :=
        mem_survivors_first.2 ⟨⟨hi, hnext⟩, hfirst⟩
      exact hasMate_of_first hright 2 ⟨.refl _ _, .refl _ _⟩
  | 1 =>
    -- Back along a row: the row side of the half below.
    have hbelow : ((i + 1, j), .first) ∈ survivors slices len :=
      mem_survivors_first.2 ⟨⟨Nat.lt_of_le_of_ne hi hsome, hj⟩, Nat.succ_ne_zero i⟩
    exact hasMate_of_first hbelow 0 ⟨.refl _ _, .refl _ _⟩
  | 2 =>
    -- Up the diagonal: the other half of the quad, at the first row the second half before.
    by_cases hfirst : i = 0
    · subst hfirst
      obtain ⟨j', hj', rfl⟩ := exists_column_before hj
      have hleft : ((0, j'), .second) ∈ survivors slices len :=
        mem_survivors_second.2 ⟨⟨hi, hj'⟩, hsome⟩
      exact hasMate_of_second hleft 0 ⟨meets_first _ _ _, .refl _ _⟩
    · have hsame : ((i, j), .first) ∈ survivors slices len :=
        mem_survivors_first.2 ⟨⟨hi, hj⟩, hfirst⟩
      exact hasMate_of_first hsame 1 ⟨.refl _ _, .refl _ _⟩

theorem exists_mate {t : Tile} (ht : t ∈ survivors slices len) (k : Fin 3) :
    HasMate slices len (sideOf slices len t k) := by
  obtain ⟨⟨i, j⟩, half⟩ := t
  cases half with
  | first => exact hasMate_first ht k
  | second => exact hasMate_second ht k

end Mates

end ProceduralShapes.Grid
