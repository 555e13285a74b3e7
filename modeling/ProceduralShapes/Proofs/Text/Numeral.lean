import ProceduralShapes.Decimal.Shortest
import ProceduralShapes.Proofs.Text.Words
import ProceduralShapes.Text.Digits

/-!
# Numbers as words

The text of a whole number is a word that reads as the number. The text of a double is a word too.
-/

namespace ProceduralShapes.Text

/- No printed character of ASCII is a blank. -/
theorem isBlank_eq_false {c : Char} (h : 0x21 ≤ c.toNat) (h' : c.toNat ≤ 0x7E) :
    isBlank c = false := by
  rw [isBlank, List.any_eq_false]
  intro range hrange hblank
  simp only [Bool.and_eq_true, decide_eq_true_eq] at hblank
  simp only [blankRanges, List.mem_cons, List.not_mem_nil, or_false] at hrange
  rcases hrange with rfl | rfl | rfl | rfl | rfl | rfl | rfl | rfl | rfl | rfl <;> omega

theorem isBlank_of_isDigit {c : Char} (h : c.isDigit) : isBlank c = false := by
  obtain ⟨h, h'⟩ := Char.isDigit_iff_toNat.1 h
  have hzero : '0'.toNat = 48 := rfl
  have hnine : '9'.toNat = 57 := rfl
  exact isBlank_eq_false (by omega) (by omega)

/-! ### Whole numbers -/

theorem isDigit_of_mem_toDigits {n : Nat} {c : Char} (h : c ∈ Nat.toDigits 10 n) : c.isDigit :=
  Nat.isDigit_of_mem_toDigits (by decide) (by decide) h

theorem isWord_toDigits (n : Nat) : IsWord isBlank (Nat.toDigits 10 n) :=
  ⟨Nat.toDigits_ne_nil, fun _ hc => isBlank_of_isDigit (isDigit_of_mem_toDigits hc)⟩

theorem isWord_toString (n : Nat) : IsWord isBlank (toString n).toList := by
  rw [Nat.toString_eq_repr, Nat.toList_repr]
  exact isWord_toDigits n

@[simp] theorem natural?_toDigits (n : Nat) : natural? (Nat.toDigits 10 n) = some n := by
  have hvalue : digitsValue (Nat.toDigits 10 n) = n := Nat.ofDigitChars_ten_toDigits
  have hdigits : (Nat.toDigits 10 n).all Char.isDigit = true :=
    List.all_eq_true.2 fun c hc => isDigit_of_mem_toDigits hc
  rw [natural?, hdigits, hvalue]
  simp [Nat.toDigits_ne_nil]

end ProceduralShapes.Text

/-! ### Doubles -/

namespace ProceduralShapes.Decimal

open Text

theorem Digits.isWord_positional (d : Digits) : IsWord isBlank d.positional.toList := by
  have hword := isWord_toDigits d.digits
  have hzeros : ∀ (k : Nat), ∀ c ∈ List.replicate k '0', isBlank c = false := by
    intro k c hc
    rw [List.eq_of_mem_replicate hc]
    rfl
  unfold Digits.positional
  simp only
  split
  · rw [String.toList_ofList]
    exact hword.append (hzeros _)
  · split
    · rw [String.toList_ofList]
      refine ⟨by simp, List.forall_mem_append.2 ⟨?_, List.forall_mem_cons.2 ⟨rfl, ?_⟩⟩⟩
      · exact fun c hc => hword.plain c (List.mem_of_mem_take hc)
      · exact fun c hc => hword.plain c (List.mem_of_mem_drop hc)
    · rw [String.toList_ofList]
      have hlead : IsWord isBlank ['0', '.'] := isWord_of_all rfl
      exact (hlead.append (hzeros _)).append hword.plain

theorem isWord_positional (x : Float) : IsWord isBlank (positional x).toList := by
  unfold positional
  simp only
  split
  · exact isWord_of_all rfl
  · have hmagnitude : IsWord isBlank (if x.isInf then "inf"
        else if (Binary.ofFloat x).mantissa = 0 then "0"
        else (Shortest.ofBinary (Binary.ofFloat x)).positional).toList := by
      split
      · exact isWord_of_all rfl
      · split
        · exact isWord_of_all rfl
        · exact Digits.isWord_positional _
    split
    · rw [String.toList_append]
      exact isWord_cons rfl hmagnitude.plain
    · exact hmagnitude

end ProceduralShapes.Decimal
