import Mathlib.Order.Bounds.Basic
import ProceduralShapes.Proofs.Grammar.Moment
import ProceduralShapes.Proofs.Grammar.RunLength

/-!
# The height of the stack

A frame is dropped when too many others wait below it, but it can leave any number of calls on top
of them before the first of those is looked at. So the stack grows past the limit by the calls of
one variant and no further, at every moment of an evaluation (`stack_bounded`). The peak that an
evaluation reports is the height of its highest stack.
-/

namespace ProceduralShapes

variable {α σ : Type}

/- How many of the actions are calls. -/
def callCount (xs : List (Action × Transform α)) : Nat :=
  total (fun x => (⟨x.1, x.2, 1⟩ : Statement α).calls) xs

theorem callCount_repetitions (v : Variant α) : callCount v.repetitions = v.calls := by
  rw [callCount, total_repetitions, Variant.calls]
  refine congrArg (fun h => total h v.statements) (funext fun s => ?_)
  simp only [Statement.calls]
  cases s.action with
  | call rule => exact Nat.mul_one s.count
  | place shape => exact Nat.mul_zero s.count

namespace Grammar

variable {g : Grammar α}

/- The height that no stack exceeds. -/
def stackBound (g : Grammar α) : Nat := g.maxDepth - 1 + g.fanOut

/- The frame has been restarted and called no more often than any frame can be. -/
def Frame.Bounded (f : Frame g) : Prop := f.restarts ≤ g.maxDepth ∧ f.depth ≤ g.depthBound

theorem bounded_of_called {f c : Frame g} (hrestarts : f.restarts < g.maxDepth)
    (hlimit : f.depth < f.limit) (hdepth : c.depth = f.depth + 1)
    (hsame : c.restarts = f.restarts) : c.Bounded := by
  have hbound := limit_le_depthBound f
  unfold Frame.Bounded
  omega

/-! ### What holds at every moment -/

/- At the head of the loop. -/
structure State.Sound (s : State g σ) : Prop where
  size_le : s.pending.size ≤ g.stackBound
  bounded : ∀ f ∈ s.pending, f.Bounded
  size_le_peak : s.pending.size ≤ max 1 s.run.stats.peak
  peak_le : s.run.stats.peak ≤ g.stackBound

/- Among the statements of a frame: the calls made and those still to make are no more than those
of its variant. -/
structure Midway.Sound (a : Midway g σ) : Prop where
  below_lt : a.waiting.size < g.maxDepth
  restarts_lt : a.frame.restarts < g.maxDepth
  depth_lt : a.frame.depth < a.frame.limit
  bounded : ∀ f ∈ a.waiting, f.Bounded
  spawned : ∃ k, a.work.Spawned a.frame k ∧ k + callCount a.todo ≤ g.callBound
  peak_le : a.run.stats.peak ≤ g.stackBound

def Moment.Sound : Moment g σ → Prop
  | .head s => s.Sound
  | .amid a => a.Sound

theorem fanOut_pos (g : Grammar α) : 0 < g.fanOut := Nat.le_max_left 1 g.callBound

theorem callBound_le_fanOut (g : Grammar α) : g.callBound ≤ g.fanOut := Nat.le_max_right 1 _

theorem Midway.Sound.size_le {a : Midway g σ} (h : a.Sound) :
    a.waiting.size + a.work.children.size ≤ g.stackBound := by
  obtain ⟨k, hspawned, hcalls⟩ := h.spawned
  have hbelow := h.below_lt
  have hsize := hspawned.size_le
  have hfan := g.callBound_le_fanOut
  unfold stackBound
  omega

theorem Midway.Sound.bounded_of_mem {a : Midway g σ} (h : a.Sound) :
    ∀ f ∈ a.waiting ++ a.work.children, f.Bounded := by
  obtain ⟨k, hspawned, -⟩ := h.spawned
  intro f hf
  rcases Array.mem_append.1 hf with hf | hf
  · exact h.bounded f hf
  · exact bounded_of_called h.restarts_lt h.depth_lt (hspawned.depth_eq f hf)
      (hspawned.restarts_eq f hf)

theorem sound_enter {waiting : Array (Frame g)} {f : Frame g} {r : Run α σ}
    {interval : Nat}
    (h : (⟨waiting.push f, r⟩ : State g σ).Sound) (hgo : ¬f.Stops waiting.size) :
    (Midway.start waiting f (r.arrive interval)).Sound := by
  obtain ⟨hkept, hlimit⟩ := kept_of_not_stops hgo
  have hbelow : waiting.size < g.maxDepth := Nat.not_le.1 (not_or.1 hkept).1
  have hcalls : callCount f.rule.repetitions ≤ g.callBound := by
    rw [callCount_repetitions]
    exact calls_le_callBound f.variant
  refine ⟨hbelow, restarts_lt_of_kept hkept, hlimit, ?_,
    ⟨0, ⟨by simp [Midway.start], ?_, ?_⟩, ?_⟩, ?_⟩
  · intro c hc
    exact h.bounded c (Array.mem_push_of_mem _ hc)
  · simp [Midway.start]
  · simp [Midway.start]
  · rw [Nat.zero_add]
    exact hcalls
  · simpa [Midway.start] using h.peak_le

theorem sound_finish {a : Midway g σ} (h : a.Sound) : a.finish.Sound where
  size_le := by
    have hsize := h.size_le
    rwa [← Array.size_append] at hsize
  bounded := h.bounded_of_mem
  size_le_peak := by
    simp only [Midway.finish, Array.size_append]
    omega
  peak_le := Nat.max_le.2 ⟨h.peak_le, h.size_le⟩

section Moves
variable [Scalar α]

theorem sound_first (i : g.Ref) (source : σ) :
    (⟨#[⟨i, 0, 0, .identity⟩], { source }⟩ : State g σ).Sound where
  size_le := by
    have hpos := g.fanOut_pos
    simp only [stackBound, List.size_toArray, List.length_singleton]
    omega
  bounded := by
    intro f hf
    rw [Array.mem_singleton.1 hf]
    exact ⟨Nat.zero_le _, Nat.zero_le _⟩
  size_le_peak := Nat.le_max_left 1 _
  peak_le := Nat.zero_le _

variable [RandomSource σ] {interval : Nat}

/- A frame that is not run leaves one frame at most. -/
theorem sound_leave {waiting children : Array (Frame g)} {f : Frame g} {r next : Run α σ}
    (h : (⟨waiting.push f, r⟩ : State g σ).Sound) (hstop : f.Stops waiting.size)
    (hstep : f.step waiting.size (r.arrive interval) = .ok (children, next)) :
    (⟨waiting ++ children, next⟩ : State g σ).Sound := by
  have hsize := h.size_le
  have hpeak := h.size_le_peak
  simp only [Array.size_push] at hsize hpeak
  have hwaiting : ∀ c ∈ waiting, c.Bounded := fun c hc => h.bounded c (Array.mem_push_of_mem _ hc)
  have hleft : children.size ≤ 1 ∧ (∀ c ∈ children, c.Bounded) ∧
      next.stats.peak = r.stats.peak := by
    cases leaves_of_step hstep with
    | dropped => simp [Run.drop]
    | ended => simp [Run.exhaust]
    | restarted hkept =>
      have hrestarts := restarts_lt_of_kept hkept
      refine ⟨Nat.le_refl 1, ?_, by simp [Run.exhaust]⟩
      intro c hc
      rw [Array.mem_singleton.1 hc]
      exact ⟨hrestarts, Nat.zero_le _⟩
    | expanded hkept hlimit => exact absurd hstop (not_or.2 ⟨hkept, Nat.not_le.2 hlimit⟩)
  obtain ⟨hone, hchildren, hsame⟩ := hleft
  refine ⟨?_, ?_, ?_, ?_⟩
  · simp only [Array.size_append]
    omega
  · intro c hc
    rcases Array.mem_append.1 hc with hc | hc
    · exact hwaiting c hc
    · exact hchildren c hc
  · simp only [Array.size_append]
    omega
  · simpa only [hsame] using h.peak_le

theorem sound_act {a : Midway g σ} {action : Action} {u : Transform α}
    {rest : List (Action × Transform α)} {w : Work g σ} (h : a.Sound)
    (htodo : a.todo = (action, u) :: rest) (honce : a.work.once a.frame ⟨action, u, 1⟩ = .ok w) :
    ({ a with todo := rest, work := w } : Midway g σ).Sound := by
  obtain ⟨k, hspawned, hcalls⟩ := h.spawned
  have hnext := hspawned.once honce
  rw [htodo, callCount, total_cons] at hcalls
  refine ⟨h.below_lt, h.restarts_lt, h.depth_lt, h.bounded, ⟨_, hnext, ?_⟩, h.peak_le⟩
  rw [callCount, Nat.add_assoc]
  exact hcalls

theorem sound_moves {m m' : Moment g σ} (h : m.Sound) (hmove : Moves interval m m') :
    m'.Sound := by
  cases hmove with
  | leave hstop hstep => exact sound_leave h hstop hstep
  | enter hgo => exact sound_enter h hgo
  | act htodo honce => exact sound_act h htodo honce
  | finish htodo => exact sound_finish h

theorem sound_of_visits {source : σ} {m : Moment g σ} (h : g.Visits interval source m) :
    m.Sound :=
  h.induction (P := Moment.Sound) (fun i source' => sound_first i source')
    fun _ _ hm hmove => sound_moves hm hmove

/-! ### The peak -/

theorem peak_le_of_step {s t : State g σ} (h : Step interval s t) :
    s.run.stats.peak ≤ t.run.stats.peak := by
  obtain ⟨hstep⟩ := h
  cases leaves_of_step hstep with
  | dropped => simp [Run.drop]
  | ended => simp [Run.exhaust]
  | restarted => simp [Run.exhaust]
  | expanded => simp

theorem peak_le_of_completes {n : Nat} {s : State g σ} {o : Outcome α}
    (h : Completes interval n s o) {e : Evaluation α} (he : o.result = .ok e) :
    s.run.stats.peak ≤ e.stats.peak := by
  induction h with
  | done r =>
    cases he
    exact Nat.le_refl _
  | fault => cases he
  | step hstep _ ih => exact (peak_le_of_step hstep).trans (ih he)

/- A step that raises the peak leaves a stack of that height. -/
theorem peak_of_step {s t : State g σ} (h : Step interval s t) :
    t.run.stats.peak = s.run.stats.peak ∨ t.run.stats.peak = t.pending.size := by
  obtain ⟨hstep⟩ := h
  cases leaves_of_step hstep with
  | dropped => simp [Run.drop]
  | ended => simp [Run.exhaust]
  | restarted => simp [Run.exhaust]
  | expanded =>
    simp only [Array.size_append, arrive_stats]
    omega

/- Up to the end of the evaluation there is always a stack as high as the peak. -/
theorem peak_attained {source : σ} {n : Nat} {s : State g σ} {o : Outcome α}
    (h : Completes interval n s o) (hvisit : g.Visits interval source (.head s))
    (hpeak : ∃ t : State g σ, g.Visits interval source (.head t) ∧
      t.pending.size = max 1 s.run.stats.peak) {e : Evaluation α} (he : o.result = .ok e) :
    ∃ t : State g σ, g.Visits interval source (.head t) ∧
      t.pending.size = max 1 e.stats.peak := by
  induction h with
  | done r =>
    cases he
    exact hpeak
  | fault => cases he
  | @step n s next o hstep _ ih =>
    have hnext := hvisit.step hstep
    refine ih hnext ?_ he
    obtain ⟨t, ht, hsize⟩ := hpeak
    have hmono := peak_le_of_step hstep
    rcases peak_of_step hstep with hsame | hhere
    · exact ⟨t, ht, by rw [hsize, hsame]⟩
    · by_cases hempty : next.pending.size = 0
      · exact ⟨t, ht, by omega⟩
      · exact ⟨next, hnext, by omega⟩

/- At every moment the stack is as high as the depth limit and the calls of one variant allow, and
its frames have not come too far. Statements are run only of frames that have few others below them
and are short of both limits. The peak is the height of the highest stack. -/
theorem stack_bounded (g : Grammar α) (interval : Nat) (source : σ) :
    (∀ m : Moment g σ, g.Visits interval source m →
      m.stack.size ≤ g.maxDepth - 1 + max 1 g.callBound ∧
      (∀ f ∈ m.stack, f.restarts ≤ g.maxDepth ∧ f.depth ≤ g.depthBound) ∧
      ∀ a, m = .amid a → a.waiting.size < g.maxDepth ∧ a.frame.restarts < g.maxDepth ∧
        a.frame.depth < a.frame.limit) ∧
    ∀ e, (g.evaluateFrom interval source).result = .ok e →
      e.stats.peak ≤ g.maxDepth - 1 + max 1 g.callBound ∧
      IsGreatest {n | ∃ s : State g σ, g.Visits interval source (.head s) ∧ s.pending.size = n}
        (max 1 e.stats.peak) := by
  constructor
  · intro m hvisit
    have hsound := sound_of_visits hvisit
    cases m with
    | head s => exact ⟨hsound.size_le, hsound.bounded, fun a ha => by cases ha⟩
    | amid a =>
      refine ⟨?_, hsound.bounded_of_mem, ?_⟩
      · have hsize := hsound.size_le
        rwa [← Array.size_append] at hsize
      · intro a' ha
        cases ha
        exact ⟨hsound.below_lt, hsound.restarts_lt, hsound.depth_lt⟩
  · intro e he
    cases hpick : g.pick entryRule source with
    | error e' =>
      rw [evaluateFrom, hpick] at he
      cases he
    | ok picked =>
      obtain ⟨i, source'⟩ := picked
      let first : State g σ := ⟨#[⟨i, 0, 0, .identity⟩], { source := source' }⟩
      have hfirst : g.Visits interval source (.head first) := ⟨i, source', hpick, .refl⟩
      have houtcome : ∀ s : State g σ, g.Visits interval source (.head s) →
          (s.outcome interval).result = .ok e := by
        intro s hs
        rw [← he, ← hs.outcome_eq]
        rfl
      obtain ⟨n, hrun⟩ := exists_completes interval first
      obtain ⟨top, htop, hsize⟩ := peak_attained hrun hfirst ⟨first, hfirst, rfl⟩
        (houtcome first hfirst)
      refine ⟨?_, ⟨top, htop, hsize⟩, ?_⟩
      · have hbound := (sound_of_visits htop).size_le
        exact (Nat.le_max_right 1 _).trans (hsize ▸ hbound)
      · intro size hmem
        obtain ⟨s, hs, hsize⟩ := hmem
        obtain ⟨n', hrest⟩ := exists_completes interval s
        have hpeak := peak_le_of_completes hrest (houtcome s hs)
        have hle := (sound_of_visits hs).size_le_peak
        omega

end Moves

/- The grammar whose only rule calls itself twice, with room for two frames. -/
def fork : Grammar Float :=
  add { maxDepth := 2, maxDepth_pos := Nat.two_pos }
    { name := entryRule, statements := [⟨.call entryRule, .identity, 2⟩] }

theorem exists_amid_fork :
    ∃ a, fork.Visits 0 (ChaCha.Generator.ofSeed 7) (.amid a) := by
  have hpick : (fork.pick entryRule (ChaCha.Generator.ofSeed 7)).isOk = true := by decide +kernel
  cases hchosen : fork.pick entryRule (ChaCha.Generator.ofSeed 7) with
  | error e =>
    rw [hchosen] at hpick
    cases hpick
  | ok chosen =>
    obtain ⟨i, source⟩ := chosen
    have hi : i = ⟨0, Nat.one_pos⟩ := Fin.fin_one_eq_zero i
    subst hi
    let entry : Frame fork := ⟨⟨0, Nat.one_pos⟩, 0, 0, .identity⟩
    have hgo : ¬entry.Stops 0 := by
      refine not_or.2 ⟨?_, ?_⟩
      · decide
      · decide
    have henter (r : Run Float ChaCha.Generator) :
        Moves 0 (.head ⟨#[].push entry, r⟩) (.amid (.start #[] entry (r.arrive 0))) := .enter hgo
    exact ⟨_, _, source, hchosen, .single (henter _)⟩

/- Its stack comes to three frames, as high as the bound. -/
theorem fork_stack_bounded :
    (∃ a, fork.Visits 0 (ChaCha.Generator.ofSeed 7) (.amid a) ∧
      (a.waiting ++ a.work.children).size ≤ 3 ∧ a.waiting.size < 2 ∧ a.frame.restarts < 2 ∧
      a.frame.depth < a.frame.limit) ∧
    ∃ e, (fork.evaluateFrom 0 (ChaCha.Generator.ofSeed 7)).result = .ok e ∧ e.stats.peak = 3 ∧
      ∃ s, fork.Visits 0 (ChaCha.Generator.ofSeed 7) (.head s) ∧ s.pending.size = 3 := by
  obtain ⟨hmoments, hresults⟩ := stack_bounded fork 0 (ChaCha.Generator.ofSeed 7)
  constructor
  · obtain ⟨a, ha⟩ := exists_amid_fork
    obtain ⟨hsize, -, hrun⟩ := hmoments _ ha
    exact ⟨a, ha, hsize, hrun a rfl⟩
  · have hstats : ((fork.evaluateFrom 0 (ChaCha.Generator.ofSeed 7)).result.map
        fun e => e.stats.peak) = .ok 3 := by decide +kernel
    obtain ⟨e, he, hpeak⟩ := Fallible.map_eq_ok_iff.1 hstats
    obtain ⟨s, hs, hsize⟩ := (hresults e he).2.1
    exact ⟨e, he, hpeak, s, hs, by rw [hsize, hpeak]; rfl⟩

end Grammar

end ProceduralShapes
