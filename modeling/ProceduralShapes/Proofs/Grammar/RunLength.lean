import Mathlib.Algebra.Order.BigOperators.Group.Finset
import Mathlib.Algebra.Ring.GeomSum
import ProceduralShapes.Proofs.Fallible
import ProceduralShapes.Proofs.Grammar.Machine

/-!
# The length of a run

The frames of a run form a tree: under every frame stand those it leaves behind. No frame has
more than `fanOut` of them, and each stands lower than the frame above it, where the height of a
frame falls first with its depth and, when a successor begins anew, with its restarts. So a run
takes off no more frames than there are in a full tree of the first frame's height.
-/

namespace ProceduralShapes.Grammar

variable {α σ : Type} {g : Grammar α}

/- The greatest number of frames that one frame leaves behind. -/
def fanOut (g : Grammar α) : Nat := max 1 g.callBound

/- The nodes of the full tree of height `n` in which every inner node has `b` children. -/
def treeSize (b n : Nat) : Nat := ∑ k ∈ Finset.range (n + 1), b ^ k

theorem treeSize_succ (b n : Nat) : treeSize b (n + 1) = b * treeSize b n + 1 :=
  geom_sum_succ

theorem treeSize_mono (b : Nat) {m n : Nat} (h : m ≤ n) : treeSize b m ≤ treeSize b n :=
  Finset.sum_le_sum_of_subset (Finset.range_mono (Nat.succ_le_succ h))

theorem treeSize_pos (b n : Nat) : 0 < treeSize b n := by
  cases n with
  | zero => simp [treeSize]
  | succ n =>
    rw [treeSize_succ]
    omega

namespace Frame

/- How many frames can stand in a line below the frame. -/
def height (f : Frame g) : Nat := (g.maxDepth - f.restarts) * (g.depthBound + 1) - f.depth

/- The depth is one that some limit allows. -/
def Shallow (f : Frame g) : Prop := f.depth ≤ g.depthBound

end Frame

theorem restarts_lt_of_kept {f : Frame g} {below : Nat} (h : ¬ f.Dropped below) :
    f.restarts < g.maxDepth := by
  unfold Frame.Dropped at h
  omega

theorem height_restarted {f c : Frame g} (hshallow : f.Shallow) (hf : f.restarts < g.maxDepth)
    (hdepth : c.depth = 0) (hrestarts : c.restarts = f.restarts + 1) : c.height < f.height := by
  have hsplit : g.maxDepth - f.restarts = (g.maxDepth - c.restarts) + 1 := by omega
  unfold Frame.Shallow at hshallow
  unfold Frame.height
  rw [hsplit, hdepth, Nat.add_mul]
  omega

theorem height_called {f c : Frame g} (hshallow : f.Shallow) (hf : f.restarts < g.maxDepth)
    (hdepth : c.depth = f.depth + 1) (hrestarts : c.restarts = f.restarts) :
    c.height < f.height := by
  have hlevel : 1 * (g.depthBound + 1) ≤ (g.maxDepth - f.restarts) * (g.depthBound + 1) :=
    Nat.mul_le_mul_right _ (by omega)
  unfold Frame.Shallow at hshallow
  unfold Frame.height
  rw [hdepth, hrestarts]
  omega

/- The nodes of full trees under all of the frames. -/
def budget (fs : Array (Frame g)) : Nat := total (fun f => treeSize g.fanOut f.height) fs.toList

theorem budget_append (fs gs : Array (Frame g)) : budget (fs ++ gs) = budget fs + budget gs := by
  simp [budget]

theorem budget_push (fs : Array (Frame g)) (f : Frame g) :
    budget (fs.push f) = budget fs + treeSize g.fanOut f.height := by
  simp [budget]

theorem budget_children_lt {f : Frame g} {children : Array (Frame g)}
    (hsize : children.size ≤ g.fanOut) (hlower : ∀ c ∈ children, c.height < f.height) :
    budget children < treeSize g.fanOut f.height := by
  cases hheight : f.height with
  | zero =>
    have hempty : children = #[] := by
      refine Array.eq_empty_iff_forall_not_mem.2 ?_
      intro c hc
      have hlt := hlower c hc
      omega
    rw [hempty]
    exact treeSize_pos _ _
  | succ n =>
    have htotal : budget children ≤ children.toList.length * treeSize g.fanOut n := by
      refine total_le_length_mul _ ?_
      intro c hc
      have hlt := hlower c (Array.mem_toList_iff.1 hc)
      exact treeSize_mono _ (by omega)
    rw [Array.length_toList] at htotal
    rw [treeSize_succ]
    exact Nat.lt_succ_of_le (htotal.trans (Nat.mul_le_mul_right _ hsize))

section Machine
variable [Scalar α] [RandomSource σ] {interval : Nat}

theorem leaves_lower {f : Frame g} {below : Nat} {r next : Run α σ} {children : Array (Frame g)}
    (h : f.Leaves below r children next) (hf : f.Shallow) :
    children.size ≤ g.fanOut ∧ ∀ c ∈ children, c.Shallow ∧ c.height < f.height := by
  cases h with
  | dropped => exact ⟨Nat.zero_le _, by simp⟩
  | ended => exact ⟨Nat.zero_le _, by simp⟩
  | restarted hkept =>
    have hrestarts := restarts_lt_of_kept hkept
    refine ⟨Nat.le_max_left _ _, ?_⟩
    intro c hc
    rw [Array.mem_singleton] at hc
    subst hc
    exact ⟨Nat.zero_le _, height_restarted hf hrestarts rfl rfl⟩
  | expanded hkept hlimit hwork =>
    have hrestarts := restarts_lt_of_kept hkept
    have hspawned := Work.Spawned.all (f := f) (k := 0) f.rule.statements
      ⟨by simp, by simp, by simp⟩ hwork
    have hcalls : f.rule.calls ≤ g.callBound := calls_le_callBound f.variant
    have hbound := limit_le_depthBound f
    refine ⟨?_, ?_⟩
    · have hsize := hspawned.size_le
      rw [Nat.zero_add] at hsize
      exact hsize.trans (hcalls.trans (Nat.le_max_right _ _))
    · intro c hc
      have hdepth := hspawned.depth_eq c hc
      refine ⟨?_, height_called hf hrestarts hdepth (hspawned.restarts_eq c hc)⟩
      unfold Frame.Shallow
      omega

theorem completes_le {n : Nat} {s : State g σ} {o : Outcome α} (h : Completes interval n s o)
    (hshallow : ∀ f ∈ s.pending, f.Shallow) : n ≤ budget s.pending := by
  induction h with
  | done r => exact Nat.zero_le _
  | fault hfail =>
    obtain ⟨_⟩ := hfail
    rw [budget_push]
    have hpos := treeSize_pos g.fanOut
    exact Nat.le_add_left_of_le (hpos _)
  | step hstep hrest ih =>
    obtain ⟨hleft⟩ := hstep
    rename_i n o waiting f r next children
    have hf : f.Shallow := hshallow f Array.mem_push_self
    obtain ⟨hsize, hlower⟩ := leaves_lower (leaves_of_step hleft) hf
    have hlt := budget_children_lt hsize fun c hc => (hlower c hc).2
    have hle := ih (by
      intro c hc
      rcases Array.mem_append.1 hc with hc | hc
      · exact hshallow c (Array.mem_push_of_mem _ hc)
      · exact (hlower c hc).1)
    rw [budget_append] at hle
    rw [budget_push]
    omega

theorem leaves_processed {f : Frame g} {below : Nat} {r next : Run α σ}
    {children : Array (Frame g)} (h : f.Leaves below r children next) :
    next.stats.processed = r.stats.processed := by
  cases h <;> rfl

theorem completes_processed {n : Nat} {s : State g σ} {o : Outcome α}
    (h : Completes interval n s o) {e : Evaluation α} (he : o.result = .ok e) :
    e.stats.processed = s.run.stats.processed + n := by
  induction h with
  | done r =>
    cases he
    rfl
  | fault => cases he
  | step hstep hrest ih =>
    obtain ⟨hleft⟩ := hstep
    have hnext := leaves_processed (leaves_of_step hleft)
    rw [arrive_stats] at hnext
    have hrun := ih he
    dsimp only at hrun hnext ⊢
    omega

/- The evaluation takes `n` frames off in all and comes to an outcome. -/
def Takes (g : Grammar α) (interval : Nat) (source : σ) (n : Nat) (o : Outcome α) : Prop :=
  match g.pick entryRule source with
  | .ok (i, source) =>
    Completes interval n (⟨#[⟨i, 0, 0, .identity⟩], { source }⟩ : State g σ) o
  | .error e => n = 0 ∧ o = ⟨#[], .error e⟩

/- Every evaluation comes to its end, and takes off no more frames than there are nodes in a full
tree as high as a frame can be. -/
theorem evaluation_length_le (g : Grammar α) (interval : Nat) (source : σ) :
    (∃ n, g.Takes interval source n (g.evaluateFrom interval source)) ∧
    ∀ n o, g.Takes interval source n o →
      n ≤ ∑ k ∈ Finset.range (g.maxDepth * (g.depthBound + 1) + 1), max 1 g.callBound ^ k ∧
      o = g.evaluateFrom interval source ∧
      ∀ e, o.result = .ok e → e.stats.processed = n := by
  unfold Takes evaluateFrom
  cases g.pick entryRule source with
  | error e =>
    refine ⟨⟨0, rfl, rfl⟩, ?_⟩
    rintro n o ⟨rfl, rfl⟩
    refine ⟨Nat.zero_le _, rfl, ?_⟩
    intro e he
    cases he
  | ok picked =>
    obtain ⟨i, source⟩ := picked
    let first : State g σ := ⟨#[⟨i, 0, 0, .identity⟩], { source }⟩
    refine ⟨exists_completes interval first, ?_⟩
    intro n o hrun
    refine ⟨?_, completes_outcome hrun, ?_⟩
    · have hle := completes_le (s := first) hrun (by
        intro f hf
        rw [Array.mem_singleton.1 hf]
        exact Nat.zero_le _)
      simpa [first, budget, treeSize, Frame.height, fanOut] using hle
    · intro e he
      have hcount := completes_processed (s := first) hrun he
      simpa [first] using hcount

end Machine

/- The relay takes twelve frames off, where a tree of height six with two below each inner node has
room for 127. -/
theorem relay_evaluation_length :
    relay.Takes 0 (ChaCha.Generator.ofSeed 7) 12
      (relay.evaluateFrom 0 (ChaCha.Generator.ofSeed 7)) ∧
    12 ≤ ∑ k ∈ Finset.range (relay.maxDepth * (relay.depthBound + 1) + 1),
      max 1 relay.callBound ^ k ∧
    relay.maxDepth * (relay.depthBound + 1) = 6 ∧ relay.callBound = 2 := by
  obtain ⟨⟨n, hn⟩, hlength⟩ := evaluation_length_le relay 0 (ChaCha.Generator.ofSeed 7)
  obtain ⟨hle, -, hprocessed⟩ := hlength n _ hn
  have hcount : ((relay.evaluateFrom 0 (ChaCha.Generator.ofSeed 7)).result.map
      fun e => e.stats.processed) = .ok 12 := by decide +kernel
  obtain ⟨e, he, htwelve⟩ := Fallible.map_eq_ok_iff.1 hcount
  obtain rfl : n = 12 := (hprocessed e he).symm.trans htwelve
  exact ⟨hn, hle, rfl, rfl⟩

end ProceduralShapes.Grammar
