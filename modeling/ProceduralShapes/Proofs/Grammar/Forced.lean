import ProceduralShapes.Proofs.Grammar.Lockstep
import ProceduralShapes.Proofs.Random.Range

/-!
# Runs without a choice

Where a name has at most one variant with a weight, every number in range falls to it, however many
variants without weight stand around it (`Forced.choose_unique`). The numbers drawn then make no
difference to a pick, so evaluations from any two sources go in lockstep, although the sources
themselves never agree again.
-/

namespace ProceduralShapes.Grammar

variable {α σ τ : Type} {g : Grammar α}

/- Under every name there is at most one variant that can be picked. -/
def Forced (g : Grammar α) : Prop :=
  ∀ name, ((g.named name).filter fun i => 0 < g.weight i).length ≤ 1

theorem weight_pos_iff (i : g.Ref) : 0 < g.weight i ↔ 0 < (g.variant i).weight := by
  rw [UInt32.lt_iff_toNat_lt]
  rfl

theorem forced_declare {maxDepth : Nat} (hpos : 0 < maxDepth) {vs : List (Variant α)}
    (hone : ∀ name, (vs.countP fun v => v.name = name ∧ 0 < v.weight) ≤ 1) :
    (declare maxDepth hpos vs).Forced := by
  obtain ⟨hindexed, hvariants, -⟩ := indexed_declare maxDepth hpos vs
  intro name
  have hweight : (fun i => decide (0 < (declare maxDepth hpos vs).weight i)) =
      (fun v : Variant α => decide (0 < v.weight)) ∘ (declare maxDepth hpos vs).variant := by
    funext i
    exact decide_eq_decide.2 (weight_pos_iff i)
  have hcount := hone name
  rw [← List.countP_eq_length_filter, hweight, ← List.countP_map, hindexed.named_eq, hvariants,
    List.countP_filter]
  refine le_trans (le_of_eq (List.countP_congr fun v _ => ?_)) hcount
  simp [and_comm]

theorem Forced.choose_unique (hg : g.Forced) {name : String} {n m : Nat} {i j : g.Ref}
    (hi : Weighted.choose g.weight (g.named name) n = some i)
    (hj : Weighted.choose g.weight (g.named name) m = some j) : i = j := by
  rw [← Weighted.choose_filter_pos] at hi hj
  have hmem := Weighted.mem_of_choose hi
  have hmem' := Weighted.mem_of_choose hj
  have hlength := hg name
  generalize (g.named name).filter (fun i => 0 < g.weight i) = candidates at *
  match candidates, hlength with
  | [k], _ => rw [List.mem_singleton.1 hmem, List.mem_singleton.1 hmem']

section Sources
variable [RandomSource σ] [RandomSource τ]

/- The sources need not have anything to do with each other. -/
theorem Forced.lockstep (hg : g.Forced) (hσ : InRange σ) (hτ : InRange τ) :
    Lockstep (fun (_ : σ) (_ : τ) => True) g g := by
  refine ⟨rfl, fun name source source' _ => ?_⟩
  rw [pick_eq, pick_eq]
  by_cases hname : g.index.contains name
  · by_cases hzero : total g.weight (g.named name) = 0
    · simp only [hname, hzero, if_true]
      exact Fallible.both_error _
    · have htotal : 0 < total g.weight (g.named name) := Nat.pos_of_ne_zero hzero
      obtain ⟨i, hi⟩ := Weighted.exists_choose (hσ _ source htotal)
      obtain ⟨j, hj⟩ := Weighted.exists_choose (hτ _ source' htotal)
      simp only [hname, hzero, if_true, if_false, hi, hj]
      exact Fallible.both_ok ⟨congrArg g.offer (hg.choose_unique hi hj), trivial⟩
  · simp only [hname, Bool.false_eq_true, if_false]
    exact Fallible.both_error _

end Sources

/- Where no name has two variants with a weight, neither the numbers drawn nor the seed make a
difference to the placements, to the counts or to the error. -/
theorem evaluation_seedless [Scalar α] {maxDepth : Nat} (hpos : 0 < maxDepth)
    (vs : List (Variant α))
    (hone : ∀ name, (vs.countP fun v => v.name = name ∧ 0 < v.weight) ≤ 1) :
    (∀ (σ τ : Type) [RandomSource σ] [RandomSource τ], InRange σ → InRange τ →
      ∀ interval (source : σ) (source' : τ),
        (declare maxDepth hpos vs).evaluateFrom interval source =
          (declare maxDepth hpos vs).evaluateFrom interval source') ∧
    ∀ interval seed seed',
      (declare maxDepth hpos vs).evaluate ⟨seed, interval⟩ =
        (declare maxDepth hpos vs).evaluate ⟨seed', interval⟩ := by
  have hforced := forced_declare hpos hone
  have hgenerator := ChaCha.Generator.inRange_generator
  constructor
  · intro σ τ _ _ hσ hτ interval source source'
    exact (hforced.lockstep hσ hτ).evaluateFrom_eq interval trivial
  · intro interval seed seed'
    exact (hforced.lockstep hgenerator hgenerator).evaluateFrom_eq interval trivial

/- A trunk that goes on by itself, with variants that are never picked before and behind. -/
def trunk : List (Variant Float) :=
  [{ name := entryRule, weight := 0 },
    { name := entryRule,
      statements := [⟨.place "box", .identity, 2⟩, ⟨.call entryRule, .identity, 1⟩] },
    { name := "leaf", weight := 0 },
    { name := entryRule, weight := 0, statements := [⟨.call "leaf", .identity, 1⟩] }]

theorem trunk_seedless :
    (declare 9 (Nat.succ_pos 8) trunk).evaluate ⟨1, 1⟩ =
      (declare 9 (Nat.succ_pos 8) trunk).evaluate ⟨2, 1⟩ := by
  refine (evaluation_seedless (Nat.succ_pos 8) trunk ?_).2 1 1 2
  intro name
  by_cases hname : entryRule = name
  · simp [trunk, hname]
  · simp [trunk, hname]

end ProceduralShapes.Grammar
