import ProceduralShapes.Grammar.Frame
import ProceduralShapes.Total

/-!
# Bounds on a run

A frame is farther from its end the fewer restarts and the smaller depth it has. Its cost
grows with that distance, each time by a factor greater than the number of calls in any
variant. The frames that a frame leaves behind cost less together than it did
(`potential_children_lt`), so a run comes to an end.
-/

namespace ProceduralShapes.Grammar

variable {α σ : Type} {g : Grammar α}

/-! ### Greatest elements -/

def greatest (ns : List Nat) : Nat := ns.foldr max 0

theorem le_greatest {n : Nat} {ns : List Nat} (h : n ∈ ns) : n ≤ greatest ns := by
  induction ns with
  | nil => simp at h
  | cons m ns ih =>
    simp only [greatest, List.foldr_cons]
    rcases List.mem_cons.1 h with rfl | h
    · exact Nat.le_max_left _ _
    · exact Nat.le_trans (ih h) (Nat.le_max_right _ _)

end Grammar

def Statement.calls {α : Type} (s : Statement α) : Nat :=
  match s.action with
  | .call _ => s.count
  | .place _ => 0

def Variant.calls {α : Type} (v : Variant α) : Nat := total Statement.calls v.statements

namespace Grammar

variable {α σ : Type} {g : Grammar α}

def depthBound (g : Grammar α) : Nat :=
  greatest (g.maxDepth :: g.variants.toList.map fun v => v.maxDepth?.getD 0)

def callBound (g : Grammar α) : Nat := greatest (g.variants.toList.map Variant.calls)

theorem variant_mem (i : g.Ref) : g.variant i ∈ g.variants.toList :=
  Array.getElem_mem_toList i.isLt

theorem calls_le_callBound (i : g.Ref) : (g.variant i).calls ≤ g.callBound :=
  le_greatest (List.mem_map_of_mem (variant_mem i))

theorem limit_le_depthBound (f : Frame g) : f.limit ≤ g.depthBound := by
  unfold Frame.limit Frame.rule
  cases h : (g.variant f.variant).maxDepth? with
  | none => exact le_greatest (by simp)
  | some d =>
    exact le_greatest (List.mem_cons_of_mem _
      (List.mem_map.2 ⟨_, variant_mem f.variant, by rw [h]; rfl⟩))

/-! ### Frames left behind -/

/-- Every frame among the children was called from `f`, and there are at most `k`. -/
structure Work.Spawned (f : Frame g) (k : Nat) (w : Work g σ) : Prop where
  size_le : w.children.size ≤ k
  depth_eq : ∀ c ∈ w.children, c.depth = f.depth + 1
  restarts_eq : ∀ c ∈ w.children, c.restarts = f.restarts

section Spawned
variable [Scalar α] [RandomSource σ] {f : Frame g} {k : Nat} {w w' : Work g σ}

theorem Work.Spawned.once {s : Statement α} (h : w.Spawned f k) (hw : w.once f s = .ok w') :
    w'.Spawned f (k + { s with count := 1 }.calls) := by
  obtain ⟨source, transform, children, placed⟩ := w
  cases ha : s.action with
  | call rule =>
    simp only [Work.once, ha] at hw
    simp only [Statement.calls]
    split at hw
    · cases hw
      refine ⟨by simpa using h.size_le, fun c hc => ?_, fun c hc => ?_⟩ <;>
        rcases Array.mem_push.1 hc with hc | rfl
      · exact h.depth_eq c hc
      · rfl
      · exact h.restarts_eq c hc
      · rfl
    · cases hw
  | place shape =>
    simp only [Work.once, ha] at hw
    simp only [Statement.calls]
    cases hw
    exact ⟨h.size_le, h.depth_eq, h.restarts_eq⟩

theorem Work.Spawned.times {s : Statement α} (n : Nat) (h : w.Spawned f k)
    (hw : Work.times f s n w = .ok w') : w'.Spawned f (k + { s with count := n }.calls) := by
  induction n generalizing k w with
  | zero =>
    cases hw
    exact ⟨Nat.le_add_right_of_le h.size_le, h.depth_eq, h.restarts_eq⟩
  | succ n ih =>
    unfold Work.times at hw
    split at hw
    · rename_i next ho
      have hn := ih (h.once ho) hw
      refine ⟨Nat.le_trans hn.size_le (Nat.le_of_eq ?_), hn.depth_eq, hn.restarts_eq⟩
      simp only [Statement.calls]
      cases s.action with
      | call rule =>
        simp only
        omega
      | place shape => rfl
    · cases hw

theorem Work.Spawned.all (ss : List (Statement α)) (h : w.Spawned f k)
    (hw : Work.all f ss w = .ok w') : w'.Spawned f (k + total Statement.calls ss) := by
  induction ss generalizing k w with
  | nil => cases hw; simpa using h
  | cons s ss ih =>
    unfold Work.all at hw
    split at hw
    · rename_i next ht
      have hn := ih (h.times s.count ht) hw
      rwa [total_cons, ← Nat.add_assoc]
    · cases hw

end Spawned

/-! ### Potential -/

/-- How far a frame is from its end. -/
def Frame.rank (f : Frame g) : Nat :=
  (g.maxDepth - f.restarts) * (g.depthBound + 1) + (g.depthBound - f.depth)

def rankCost (g : Grammar α) : Nat → Nat
  | 0 => 1
  | r + 1 => (g.callBound + 2) * g.rankCost r

theorem rankCost_pos (g : Grammar α) (r : Nat) : 0 < g.rankCost r := by
  induction r with
  | zero => exact Nat.one_pos
  | succ r ih => exact Nat.mul_pos (by omega) ih

theorem rankCost_le (g : Grammar α) {r s : Nat} (h : r ≤ s) : g.rankCost r ≤ g.rankCost s := by
  induction h with
  | refl => exact Nat.le_refl _
  | step _ ih => exact Nat.le_trans ih (Nat.le_mul_of_pos_left _ (by omega))

def Frame.cost (f : Frame g) : Nat := g.rankCost f.rank

def potential (fs : Array (Frame g)) : Nat := total Frame.cost fs.toList

theorem potential_append (fs gs : Array (Frame g)) :
    potential (fs ++ gs) = potential fs + potential gs := by
  simp [potential]

theorem potential_push (fs : Array (Frame g)) (f : Frame g) :
    potential (fs.push f) = potential fs + f.cost := by
  simp [potential]

theorem potential_pop (fs : Array (Frame g)) (h : 0 < fs.size) :
    potential fs = potential fs.pop + (fs[fs.size - 1]).cost := by
  have hsplit : fs = fs.pop.push fs[fs.size - 1] := by
    ext i hi _
    · simp only [Array.size_push, Array.size_pop]
      omega
    · rw [Array.getElem_push]
      split
      · rw [Array.getElem_pop]
      · rename_i hlast
        have : i = fs.size - 1 := by
          simp only [Array.size_pop] at hlast
          omega
        subst this
        rfl
  rw [← potential_push, ← hsplit]

theorem Frame.cost_pos (f : Frame g) : 0 < f.cost := g.rankCost_pos f.rank

theorem potential_lt_cost {f : Frame g} {fs : Array (Frame g)} (hs : fs.size ≤ g.callBound + 1)
    (h : ∀ c ∈ fs, c.rank < f.rank) : potential fs < f.cost := by
  by_cases he : fs.size = 0
  · have : fs = #[] := Array.eq_empty_of_size_eq_zero he
    subst this
    exact f.cost_pos
  · have hpos : 0 < fs.size := by omega
    obtain ⟨r, hr⟩ : ∃ r, f.rank = r + 1 := by
      have := h fs[0] (Array.getElem_mem hpos)
      exact ⟨f.rank - 1, by omega⟩
    have hle := total_le_length_mul (f := Frame.cost) (k := g.rankCost r) fs.toList fun c hc => by
      have := h c (Array.mem_toList_iff.1 hc)
      exact g.rankCost_le (by omega)
    have hp := g.rankCost_pos r
    calc potential fs ≤ fs.size * g.rankCost r := by simpa [potential] using hle
      _ ≤ (g.callBound + 1) * g.rankCost r := Nat.mul_le_mul_right _ hs
      _ < (g.callBound + 2) * g.rankCost r := by
        rw [Nat.add_mul, Nat.add_mul]
        omega
      _ = f.cost := by rw [Frame.cost, hr, rankCost]

theorem rank_lt_of_restart {f c : Frame g} (hr : f.restarts < g.maxDepth)
    (hc : c.restarts = f.restarts + 1) : c.rank < f.rank := by
  unfold Frame.rank
  have h : (g.maxDepth - f.restarts) = (g.maxDepth - c.restarts) + 1 := by omega
  rw [h, Nat.add_mul]
  omega

theorem rank_lt_of_call {f c : Frame g} (hd : f.depth < f.limit) (hc : c.depth = f.depth + 1)
    (hr : c.restarts = f.restarts) : c.rank < f.rank := by
  have := limit_le_depthBound f
  unfold Frame.rank
  rw [hr]
  omega

/-- What a frame leaves behind costs less than the frame did. -/
theorem potential_children_lt [Scalar α] [RandomSource σ] {f : Frame g} {below : Nat}
    {r r' : Run α σ} {children : Array (Frame g)} (h : f.step below r = .ok (children, r')) :
    potential children < f.cost := by
  unfold Frame.step at h
  split at h
  · cases h
    exact f.cost_pos
  · rename_i hdrop
    have hrestarts : f.restarts < g.maxDepth := by
      unfold Frame.Dropped at hdrop
      omega
    split at h
    · unfold Frame.restart at h
      split at h
      · cases h
        exact f.cost_pos
      · simp only at h
        split at h
        · cases h
          refine potential_lt_cost (by simp) fun c hc => ?_
          rw [Array.mem_singleton] at hc
          subst hc
          exact rank_lt_of_restart hrestarts rfl
        · cases h
    · rename_i hlimit
      unfold Frame.expand at h
      simp only at h
      split at h
      · rename_i hw
        cases h
        have hs := Work.Spawned.all (f := f) (k := 0) f.rule.statements
          ⟨by simp, by simp, by simp⟩ hw
        have hcalls : f.rule.calls ≤ g.callBound := calls_le_callBound f.variant
        refine potential_lt_cost ?_ fun c hc =>
          rank_lt_of_call (by omega) (hs.depth_eq c hc) (hs.restarts_eq c hc)
        have hsize : _ ≤ _ := hs.size_le
        simp only [Variant.calls] at hcalls
        simp only at hsize
        omega
      · cases h

end ProceduralShapes.Grammar
