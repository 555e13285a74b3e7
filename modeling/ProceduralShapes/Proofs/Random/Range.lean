import ProceduralShapes.Random.ChaCha

/-!
# Draws in range

A source is in range when every draw gives a number below the bound that it was asked for. The
generator is (`inRange_generator`), for every key. A number below the total weight of some items
lies in the share of one of them.
-/

namespace ProceduralShapes

/- Every draw gives a number below its bound. -/
def InRange (σ : Type) [RandomSource σ] : Prop :=
  ∀ (bound : Nat) (source : σ), 0 < bound → (RandomSource.below bound source).1 < bound

namespace Weighted

variable {β : Type} {weight : β → Nat}

theorem exists_choose {items : List β} {n : Nat} (h : n < total weight items) :
    ∃ item, choose weight items n = some item := by
  induction items generalizing n with
  | nil => exact absurd h (Nat.not_lt_zero n)
  | cons item rest ih =>
    rw [total_cons] at h
    unfold choose
    split
    · exact ⟨item, rfl⟩
    · exact ih (by omega)

theorem mem_of_choose {items : List β} {n : Nat} {item : β}
    (h : choose weight items n = some item) : item ∈ items := by
  induction items generalizing n with
  | nil => cases h
  | cons first rest ih =>
    unfold choose at h
    split at h
    · cases h
      exact List.mem_cons_self
    · exact List.mem_cons_of_mem first (ih h)

theorem lt_total_of_choose {items : List β} {n : Nat} {item : β}
    (h : choose weight items n = some item) : n < total weight items := by
  induction items generalizing n with
  | nil => cases h
  | cons first rest ih =>
    rw [total_cons]
    unfold choose at h
    split at h
    · omega
    · have hrest := ih h
      omega

/- The share of an item that stands once begins where those of the items before it end. -/
theorem choose_split_iff {before after : List β} {item : β} (hbefore : item ∉ before)
    (hafter : item ∉ after) (n : Nat) :
    choose weight (before ++ item :: after) n = some item ↔
      total weight before ≤ n ∧ n < total weight before + weight item := by
  induction before generalizing n with
  | nil =>
    simp only [List.nil_append, choose, total_nil, Nat.zero_le, Nat.zero_add, true_and]
    split
    · rename_i hlt
      simp [hlt]
    · rename_i hge
      simp only [hge, iff_false]
      intro h
      exact hafter (mem_of_choose h)
  | cons first rest ih =>
    obtain ⟨hne, hrest⟩ := List.ne_and_not_mem_of_not_mem_cons hbefore
    rw [List.cons_append, choose, total_cons]
    split
    · rename_i hlt
      constructor
      · intro h
        exact absurd (Option.some.inj h).symm hne
      · intro h
        omega
    · rename_i hge
      rw [ih hrest]
      omega

end Weighted

namespace ChaCha.Generator

theorem high_lt {x bound : Nat} (hx : x < UInt64.size) (hbound : 0 < bound) :
    x * bound / UInt64.size < bound := by
  have hproduct : x * bound < UInt64.size * bound := Nat.mul_lt_mul_of_pos_right hx hbound
  exact Nat.div_lt_of_lt_mul hproduct

/- The greatest high half is reached only with a low half that asks for no second draw. -/
theorem high_succ_lt {x bound : Nat} (hx : x < UInt64.size) (hbound : 0 < bound)
    (hlow : UInt64.size - bound < x * bound % UInt64.size) :
    x * bound / UInt64.size + 1 < bound := by
  have hhigh := high_lt hx hbound
  refine Nat.lt_of_le_of_ne hhigh fun hsucc => ?_
  have hsplit := Nat.div_add_mod (x * bound) UInt64.size
  have hle : (x + 1) * bound ≤ UInt64.size * bound := Nat.mul_le_mul_right bound hx
  have hfull : UInt64.size * (x * bound / UInt64.size + 1) = UInt64.size * bound := by rw [hsucc]
  rw [Nat.add_mul, Nat.one_mul] at hle
  rw [Nat.mul_add, Nat.mul_one] at hfull
  omega

theorem below_lt (g : Generator) {bound : Nat} (hbound : 0 < bound) :
    (g.below bound).1 < bound := by
  have hx : g.next.1.toNat < UInt64.size := g.next.1.toNat_lt
  unfold below
  dsimp only
  split
  · rename_i hlow
    split
    · exact high_succ_lt hx hbound hlow
    · exact high_lt hx hbound
  · exact high_lt hx hbound

theorem inRange_generator : InRange Generator := fun _ g hbound => g.below_lt hbound

end ChaCha.Generator

end ProceduralShapes
