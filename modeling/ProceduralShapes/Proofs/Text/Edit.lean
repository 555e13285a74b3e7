import Mathlib.Order.Lattice.Nat
import Mathlib.Order.MinMax
import ProceduralShapes.Text.Distance

/-!
# Edits

An edit inserts a character, takes one out or puts another in its place. Texts are compared row by
row, and what comes out is the least number of edits that turn the one into the other
(`distance_isLeast`).
-/

namespace ProceduralShapes.Text

variable {α : Type}

/-! ### Edits one after the other -/

/- One edit, at any place of a text. -/
inductive Edit : List α → List α → Prop
  | insert (a : α) (s : List α) : Edit s (a :: s)
  | delete (a : α) (s : List α) : Edit (a :: s) s
  | replace (a b : α) (s : List α) : Edit (a :: s) (b :: s)
  | behind (a : α) {s t : List α} (h : Edit s t) : Edit (a :: s) (a :: t)

/- So many edits lead from the one text to the other. -/
inductive Edits : Nat → List α → List α → Prop
  | same (s : List α) : Edits 0 s s
  | step {n : Nat} {s t u : List α} (h : Edit s t) (hs : Edits n t u) : Edits (n + 1) s u

theorem Edit.append_left (r : List α) {s t : List α} (h : Edit s t) : Edit (r ++ s) (r ++ t) := by
  induction r with
  | nil => exact h
  | cons a r ih => exact ih.behind a

theorem Edit.append_right (r : List α) {s t : List α} (h : Edit s t) : Edit (s ++ r) (t ++ r) := by
  induction h with
  | insert a s => exact .insert a (s ++ r)
  | delete a s => exact .delete a (s ++ r)
  | replace a b s => exact .replace a b (s ++ r)
  | behind a _ ih => exact ih.behind a

theorem Edit.reverse {s t : List α} (h : Edit s t) : Edit s.reverse t.reverse := by
  induction h with
  | insert a s =>
    rw [List.reverse_cons]
    simpa using (Edit.insert a []).append_left s.reverse
  | delete a s =>
    rw [List.reverse_cons]
    simpa using (Edit.delete a []).append_left s.reverse
  | replace a b s =>
    rw [List.reverse_cons, List.reverse_cons]
    exact (Edit.replace a b []).append_left s.reverse
  | behind a _ ih =>
    rw [List.reverse_cons, List.reverse_cons]
    exact ih.append_right [a]

theorem Edits.behind (a : α) {n : Nat} {s t : List α} (h : Edits n s t) :
    Edits n (a :: s) (a :: t) := by
  induction h with
  | same s => exact .same (a :: s)
  | step h _ ih => exact .step (h.behind a) ih

theorem Edits.reverse {n : Nat} {s t : List α} (h : Edits n s t) :
    Edits n s.reverse t.reverse := by
  induction h with
  | same s => exact .same s.reverse
  | step h _ ih => exact .step h.reverse ih

theorem edits_reverse_iff {n : Nat} {s t : List α} :
    Edits n s.reverse t.reverse ↔ Edits n s t := by
  refine ⟨fun h => ?_, Edits.reverse⟩
  rw [← List.reverse_reverse s, ← List.reverse_reverse t]
  exact h.reverse

/-! ### The least number of edits -/

section Cost
variable [DecidableEq α]

/- The number of edits by what is done to the first character: it is taken out, another is put
before it, or it stays in its place, changed or not. -/
def cost : List α → List α → Nat
  | [], t => t.length
  | a :: s, [] => (a :: s).length
  | a :: s, b :: t =>
    min (min (cost (a :: s) t + 1) (cost s (b :: t) + 1)) (cost s t + if a = b then 0 else 1)
termination_by s t => s.length + t.length

@[simp] theorem cost_nil_left (t : List α) : cost [] t = t.length := by rw [cost]

@[simp] theorem cost_nil_right (s : List α) : cost s [] = s.length := by
  cases s with
  | nil => rw [cost_nil_left]
  | cons a s => rw [cost]

theorem cost_cons_cons (a b : α) (s t : List α) :
    cost (a :: s) (b :: t) =
      min (min (cost (a :: s) t + 1) (cost s (b :: t) + 1))
        (cost s t + if a = b then 0 else 1) := by
  rw [cost]

/- So many edits are enough. -/
theorem edits_cost (s t : List α) : Edits (cost s t) s t := by
  fun_induction cost s t with
  | case1 t =>
    induction t with
    | nil => exact .same []
    | cons b t ih => exact .step (.insert b []) (ih.behind b)
  | case2 a s =>
    induction s generalizing a with
    | nil => exact .step (.delete a []) (.same [])
    | cons b s ih => exact .step (.delete a (b :: s)) (ih b)
  | case3 a s b t ihinsert ihdelete ihkeep =>
    have hinsert := Edits.step (.insert b (a :: s)) (ihinsert.behind b)
    have hdelete := Edits.step (.delete a s) ihdelete
    have hkeep : Edits (cost s t + if a = b then 0 else 1) (a :: s) (b :: t) := by
      split
      · rename_i heq
        subst heq
        exact ihkeep.behind a
      · exact .step (.replace a b s) (ihkeep.behind b)
    rcases min_choice (min (cost (a :: s) t + 1) (cost s (b :: t) + 1))
      (cost s t + if a = b then 0 else 1) with hmin | hmin
    · rw [hmin]
      rcases min_choice (cost (a :: s) t + 1) (cost s (b :: t) + 1) with hmin | hmin
      · rwa [hmin]
      · rwa [hmin]
    · rwa [hmin]

theorem cost_cons_left_le (a : α) (s u : List α) : cost (a :: s) u ≤ cost s u + 1 := by
  cases u with
  | nil => simp
  | cons c u =>
    rw [cost_cons_cons]
    omega

theorem cost_cons_right_le (s : List α) (c : α) (u : List α) : cost s (c :: u) ≤ cost s u + 1 := by
  cases s with
  | nil => simp
  | cons a s =>
    rw [cost_cons_cons]
    omega

theorem cost_le_cons_left (a : α) (s u : List α) : cost s u ≤ cost (a :: s) u + 1 := by
  induction u with
  | nil =>
    simp only [cost_nil_right, List.length_cons]
    omega
  | cons c u ih =>
    have hinsert := cost_cons_right_le s c u
    rw [cost_cons_cons]
    omega

theorem cost_replace_le (a b : α) (s u : List α) : cost (a :: s) u ≤ cost (b :: s) u + 1 := by
  induction u with
  | nil => simp
  | cons c u ih =>
    rw [cost_cons_cons, cost_cons_cons]
    split <;> split <;> omega

/- One edit moves a text by at most one. -/
theorem cost_le_of_edit {s t : List α} (h : Edit s t) (u : List α) : cost s u ≤ cost t u + 1 := by
  induction h generalizing u with
  | insert a s => exact cost_le_cons_left a s u
  | delete a s => exact cost_cons_left_le a s u
  | replace a b s => exact cost_replace_le a b s u
  | @behind a s t _ ih =>
    induction u with
    | nil =>
      have hnil := ih []
      simp only [cost_nil_right, List.length_cons] at hnil ⊢
      omega
    | cons c u ihu =>
      have hdelete := ih (c :: u)
      have hkeep := ih u
      rw [cost_cons_cons, cost_cons_cons]
      omega

theorem cost_le_of_edits {n : Nat} {s t : List α} (h : Edits n s t) : cost s t ≤ n := by
  induction h with
  | same s =>
    induction s with
    | nil => simp
    | cons a s ih =>
      rw [cost_cons_cons, if_pos rfl]
      omega
  | step h _ ih => exact (cost_le_of_edit h _).trans (Nat.succ_le_succ ih)

theorem cost_isLeast (s t : List α) : IsLeast {n | Edits n s t} (cost s t) :=
  ⟨edits_cost s t, fun _ h => cost_le_of_edits h⟩

theorem cost_reverse (s t : List α) : cost s.reverse t.reverse = cost s t := by
  have hreverse := cost_isLeast s.reverse t.reverse
  simp only [edits_reverse_iff] at hreverse
  exact hreverse.unique (cost_isLeast s t)

end Cost

/-! ### Row by row -/

/- What it takes to come from a text to each of the beginnings of another that reach as far as `u`
or farther, where `t` lies ahead. What has been read, `s` and `u`, is held with its last character
first. -/
def rowOf (s u : List Char) : List Char → List Nat
  | [] => [cost s u]
  | c :: t => cost s u :: rowOf s (c :: u) t

theorem rowOf_eq_cons (s u t : List Char) : rowOf s u t = cost s u :: (rowOf s u t).tail := by
  cases t with
  | nil => rfl
  | cons c t => rfl

theorem rowOf_nil (u t : List Char) : rowOf [] u t = List.range' u.length (t.length + 1) := by
  induction t generalizing u with
  | nil => simp [rowOf]
  | cons c t ih =>
    rw [rowOf, ih, cost_nil_left, List.length_cons, List.length_cons, ← List.range'_succ]

theorem getLastD_rowOf (s u t : List Char) :
    (rowOf s u t).getLastD 0 = cost s (t.reverse ++ u) := by
  induction t generalizing u with
  | nil => rfl
  | cons c t ih =>
    have hlast := ih (c :: u)
    rw [rowOf_eq_cons] at hlast
    rw [rowOf, rowOf_eq_cons, List.getLastD_cons, List.reverse_cons, List.append_assoc]
    exact hlast

theorem rowFrom_rowOf (c : Char) (s u t : List Char) :
    rowFrom c (cost (c :: s) u) t (rowOf s u t) = (rowOf (c :: s) u t).tail := by
  induction t generalizing u with
  | nil => rfl
  | cons b t ih =>
    rw [rowOf, rowOf_eq_cons s (b :: u) t, rowFrom, ← cost_cons_cons, ← rowOf_eq_cons, ih, rowOf,
      List.tail_cons, ← rowOf_eq_cons]

theorem nextRow_rowOf (c : Char) (s t : List Char) :
    nextRow t (rowOf s [] t) c = rowOf (c :: s) [] t := by
  have hfirst : (rowOf s [] t).headD 0 + 1 = cost (c :: s) [] := by
    rw [rowOf_eq_cons]
    simp
  rw [nextRow, hfirst, rowFrom_rowOf, ← rowOf_eq_cons]

theorem foldl_nextRow (cs s t : List Char) :
    cs.foldl (nextRow t) (rowOf s [] t) = rowOf (cs.reverse ++ s) [] t := by
  induction cs generalizing s with
  | nil => rfl
  | cons c cs ih =>
    rw [List.foldl_cons, nextRow_rowOf, ih, List.reverse_cons, List.append_assoc]
    rfl

theorem distance_eq_cost (s t : String) : distance s t = cost s.toList t.toList := by
  have hfirst : List.range (t.toList.length + 1) = rowOf [] [] t.toList := by
    rw [rowOf_nil, List.range_eq_range']
    rfl
  rw [distance, hfirst, foldl_nextRow, getLastD_rowOf, List.append_nil, List.append_nil,
    cost_reverse]

theorem distance_isLeast (s t : String) :
    IsLeast {n | Edits n s.toList t.toList} (distance s t) := by
  rw [distance_eq_cost]
  exact cost_isLeast s.toList t.toList

/- The least number of edits from one text to another, however it is computed. -/
noncomputable def editDistance (s t : String) : Nat := sInf {n | Edits n s.toList t.toList}

theorem editDistance_eq (s t : String) : editDistance s t = distance s t :=
  (distance_isLeast s t).csInf_eq

end ProceduralShapes.Text
