/-!
# Totals

The sum of a measure over the items of a list.
-/

namespace ProceduralShapes

variable {β γ : Type}

def total (f : β → Nat) (items : List β) : Nat := items.foldr (fun item n => f item + n) 0

@[simp] theorem total_nil (f : β → Nat) : total f [] = 0 := rfl

@[simp] theorem total_cons (f : β → Nat) (item : β) (rest : List β) :
    total f (item :: rest) = f item + total f rest := rfl

@[simp] theorem total_append (f : β → Nat) (xs ys : List β) :
    total f (xs ++ ys) = total f xs + total f ys := by
  induction xs with
  | nil => simp
  | cons x xs ih => simp [ih, Nat.add_assoc]

theorem total_map (f : γ → Nat) (h : β → γ) (items : List β) :
    total f (items.map h) = total (fun item => f (h item)) items := by
  induction items with
  | nil => rfl
  | cons item rest ih => simp only [List.map_cons, total_cons, ih]

theorem total_flatMap (f : γ → Nat) (h : β → List γ) (items : List β) :
    total f (items.flatMap h) = total (fun item => total f (h item)) items := by
  induction items with
  | nil => rfl
  | cons item rest ih => simp only [List.flatMap_cons, total_append, total_cons, ih]

theorem total_eq_length_mul {f : β → Nat} {k : Nat} {items : List β}
    (h : ∀ item ∈ items, f item = k) : total f items = items.length * k := by
  induction items with
  | nil => simp
  | cons item rest ih =>
    have hitem := h item List.mem_cons_self
    have hrest := ih fun other hother => h other (List.mem_cons_of_mem _ hother)
    rw [total_cons, List.length_cons, Nat.succ_mul, hitem, hrest, Nat.add_comm]

theorem total_le_length_mul {f : β → Nat} {k : Nat} (items : List β)
    (h : ∀ item ∈ items, f item ≤ k) : total f items ≤ items.length * k := by
  induction items with
  | nil => simp
  | cons item rest ih =>
    have hitem := h item List.mem_cons_self
    have hrest := ih fun other hother => h other (List.mem_cons_of_mem _ hother)
    rw [total_cons, List.length_cons, Nat.succ_mul]
    omega

end ProceduralShapes
