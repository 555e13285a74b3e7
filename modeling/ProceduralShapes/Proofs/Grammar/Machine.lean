import ProceduralShapes.Grammar.Evaluation

/-!
# The evaluation as a machine

Between two frames an evaluation is in a state: the frames that are pending and what was
produced so far. A step takes the last frame off and puts what it leaves behind in its place
(`Step`, with the four ways a frame can go in `Frame.Leaves`). A complete run is a chain of
steps that ends with no frame pending or with a rule that cannot be chosen (`Completes`);
from every state there is exactly one, and the loop gives its outcome.
-/

namespace ProceduralShapes.Grammar

variable {α σ : Type} {g : Grammar α}

/- The state between two frames. -/
structure State (g : Grammar α) (σ : Type) where
  pending : Array (Frame g)
  run : Run α σ

/-! ### Arriving at a frame -/

@[simp] theorem arrive_source (interval : Nat) (r : Run α σ) :
    (r.arrive interval).source = r.source := by
  unfold Run.arrive
  dsimp only
  split <;> rfl

@[simp] theorem arrive_placed (interval : Nat) (r : Run α σ) :
    (r.arrive interval).placed = r.placed := by
  unfold Run.arrive
  dsimp only
  split <;> rfl

@[simp] theorem arrive_stats (interval : Nat) (r : Run α σ) :
    (r.arrive interval).stats = { r.stats with processed := r.stats.processed + 1 } := by
  unfold Run.arrive
  dsimp only
  split <;> rfl

section Machine
variable [Scalar α] [RandomSource σ] {interval : Nat}

/-! ### What a frame can do -/

/- All that dealing with `f` can come to while `below` frames wait below it: the frames left
behind and the run afterwards. -/
inductive Frame.Leaves (f : Frame g) (below : Nat) (r : Run α σ) :
    Array (Frame g) → Run α σ → Prop
  | dropped (hdrop : f.Dropped below) : Leaves f below r #[] r.drop
  | ended (hkept : ¬ f.Dropped below) (hlimit : f.limit ≤ f.depth)
      (hnone : f.rule.successor? = none) : Leaves f below r #[] r.exhaust
  | restarted {rule : String} {i : g.Ref} {source : σ} (hkept : ¬ f.Dropped below)
      (hlimit : f.limit ≤ f.depth) (hsome : f.rule.successor? = some rule)
      (hpick : g.pick rule r.source = .ok (i, source)) :
      Leaves f below r #[⟨i, 0, f.restarts + 1, f.transform⟩] { r.exhaust with source }
  | expanded {w : Work g σ} (hkept : ¬ f.Dropped below) (hlimit : f.depth < f.limit)
      (hwork : Work.all f f.rule.statements ⟨r.source, f.transform, #[], r.placed⟩ = .ok w) :
      Leaves f below r w.children
        { r with
          source := w.source
          placed := w.placed
          stats := { r.stats with peak := max r.stats.peak (below + w.children.size) } }

/- The frame asks for a rule that cannot be chosen, as its successor or in a call. -/
inductive Frame.Blocked (f : Frame g) (below : Nat) (r : Run α σ) : PickError → Prop
  | successor {rule : String} {e : PickError} (hkept : ¬ f.Dropped below)
      (hlimit : f.limit ≤ f.depth) (hsome : f.rule.successor? = some rule)
      (hpick : g.pick rule r.source = .error e) : Blocked f below r e
  | call {e : PickError} (hkept : ¬ f.Dropped below) (hlimit : f.depth < f.limit)
      (hwork : Work.all f f.rule.statements ⟨r.source, f.transform, #[], r.placed⟩ = .error e) :
      Blocked f below r e

theorem step_of_dropped {f : Frame g} {below : Nat} (h : f.Dropped below) (r : Run α σ) :
    f.step below r = .ok (#[], r.drop) := if_pos h

theorem step_of_limit {f : Frame g} {below : Nat} (h : ¬ f.Dropped below)
    (hlimit : f.limit ≤ f.depth) (r : Run α σ) : f.step below r = f.restart r.exhaust := by
  rw [Frame.step, if_neg h, if_pos hlimit]

theorem step_of_lt_limit {f : Frame g} {below : Nat} (h : ¬ f.Dropped below)
    (hlimit : f.depth < f.limit) (r : Run α σ) : f.step below r = f.expand below r := by
  rw [Frame.step, if_neg h, if_neg (Nat.not_le.2 hlimit)]

theorem step_of_leaves {f : Frame g} {below : Nat} {r next : Run α σ} {children : Array (Frame g)}
    (h : f.Leaves below r children next) : f.step below r = .ok (children, next) := by
  cases h with
  | dropped hdrop => exact step_of_dropped hdrop r
  | ended hkept hlimit hnone => rw [step_of_limit hkept hlimit, Frame.restart, hnone]
  | restarted hkept hlimit hsome hpick =>
    have hsource : r.exhaust.source = r.source := rfl
    rw [← hsource] at hpick
    rw [step_of_limit hkept hlimit, Frame.restart, hsome]
    dsimp only
    rw [hpick]
  | expanded hkept hlimit hwork =>
    rw [step_of_lt_limit hkept hlimit, Frame.expand]
    dsimp only
    rw [hwork]

theorem step_of_blocked {f : Frame g} {below : Nat} {r : Run α σ} {e : PickError}
    (h : f.Blocked below r e) : f.step below r = .error e := by
  cases h with
  | successor hkept hlimit hsome hpick =>
    have hsource : r.exhaust.source = r.source := rfl
    rw [← hsource] at hpick
    rw [step_of_limit hkept hlimit, Frame.restart, hsome]
    dsimp only
    rw [hpick]
  | call hkept hlimit hwork =>
    rw [step_of_lt_limit hkept hlimit, Frame.expand]
    dsimp only
    rw [hwork]

theorem leaves_of_step {f : Frame g} {below : Nat} {r next : Run α σ} {children : Array (Frame g)}
    (h : f.step below r = .ok (children, next)) : f.Leaves below r children next := by
  by_cases hdrop : f.Dropped below
  · rw [step_of_dropped hdrop] at h
    cases h
    exact .dropped hdrop
  · by_cases hlimit : f.limit ≤ f.depth
    · rw [step_of_limit hdrop hlimit] at h
      unfold Frame.restart at h
      split at h
      · rename_i hnone
        cases h
        exact .ended hdrop hlimit hnone
      · rename_i rule hsome
        dsimp only at h
        split at h
        · rename_i i source hpick
          cases h
          exact .restarted hdrop hlimit hsome hpick
        · cases h
    · have hlt : f.depth < f.limit := Nat.not_le.1 hlimit
      rw [step_of_lt_limit hdrop hlt] at h
      unfold Frame.expand at h
      dsimp only at h
      split at h
      · rename_i hwork
        cases h
        exact .expanded hdrop hlt hwork
      · cases h

theorem blocked_of_step {f : Frame g} {below : Nat} {r : Run α σ} {e : PickError}
    (h : f.step below r = .error e) : f.Blocked below r e := by
  by_cases hdrop : f.Dropped below
  · rw [step_of_dropped hdrop] at h
    cases h
  · by_cases hlimit : f.limit ≤ f.depth
    · rw [step_of_limit hdrop hlimit] at h
      unfold Frame.restart at h
      split at h
      · cases h
      · rename_i rule hsome
        dsimp only at h
        split at h
        · cases h
        · rename_i e hpick
          cases h
          exact .successor hdrop hlimit hsome hpick
    · have hlt : f.depth < f.limit := Nat.not_le.1 hlimit
      rw [step_of_lt_limit hdrop hlt] at h
      unfold Frame.expand at h
      dsimp only at h
      split at h
      · cases h
      · rename_i e hwork
        cases h
        exact .call hdrop hlt hwork

/-! ### Steps -/

inductive Step (interval : Nat) : State g σ → State g σ → Prop
  | intro {waiting : Array (Frame g)} {f : Frame g} {r next : Run α σ} {children : Array (Frame g)}
      (h : f.step waiting.size (r.arrive interval) = .ok (children, next)) :
      Step interval ⟨waiting.push f, r⟩ ⟨waiting ++ children, next⟩

/- The last frame asks for a rule that cannot be chosen. -/
inductive Fails (interval : Nat) : State g σ → PickError → Prop
  | intro {waiting : Array (Frame g)} {f : Frame g} {r : Run α σ} {e : PickError}
      (h : f.step waiting.size (r.arrive interval) = .error e) :
      Fails interval ⟨waiting.push f, r⟩ e

/- The complete run from a state takes `n` frames off and comes to an outcome. -/
inductive Completes (interval : Nat) : Nat → State g σ → Outcome α → Prop
  | done (r : Run α σ) : Completes interval 0 ⟨#[], r⟩ ⟨r.notified, .ok ⟨r.placed, r.stats⟩⟩
  | fault {s : State g σ} {e : PickError} (h : Fails interval s e) :
      Completes interval 1 s ⟨(s.run.arrive interval).notified, .error e⟩
  | step {n : Nat} {s t : State g σ} {o : Outcome α} (h : Step interval s t)
      (hrest : Completes interval n t o) : Completes interval (n + 1) s o

/- What the loop makes of a state. -/
def State.outcome (interval : Nat) (s : State g σ) : Outcome α := loop interval s.pending s.run

theorem loop_empty (r : Run α σ) :
    loop interval (#[] : Array (Frame g)) r = ⟨r.notified, .ok ⟨r.placed, r.stats⟩⟩ := by
  rw [loop]
  simp

theorem loop_push (waiting : Array (Frame g)) (f : Frame g) (r : Run α σ) :
    loop interval (waiting.push f) r =
      match f.step waiting.size (r.arrive interval) with
      | .ok (children, next) => loop interval (waiting ++ children) next
      | .error e => ⟨(r.arrive interval).notified, .error e⟩ := by
  rw [loop, dif_pos (by simp)]
  have hlast : (waiting.push f)[(waiting.push f).size - 1].step ((waiting.push f).size - 1)
      (r.arrive interval) = f.step waiting.size (r.arrive interval) := by simp
  simp only
  split
  · rename_i children next hleft
    rw [hlast] at hleft
    rw [hleft, Array.pop_push]
  · rename_i e herror
    rw [hlast] at herror
    rw [herror]

theorem step_outcome {s t : State g σ} (h : Step interval s t) :
    s.outcome interval = t.outcome interval := by
  obtain ⟨hstep⟩ := h
  rw [State.outcome, loop_push, hstep]
  rfl

theorem fails_outcome {s : State g σ} {e : PickError} (h : Fails interval s e) :
    s.outcome interval = ⟨(s.run.arrive interval).notified, .error e⟩ := by
  obtain ⟨hstep⟩ := h
  rw [State.outcome, loop_push, hstep]

/-! ### Complete runs -/

theorem completes_outcome {n : Nat} {s : State g σ} {o : Outcome α}
    (h : Completes interval n s o) : o = s.outcome interval := by
  induction h with
  | done r => exact (loop_empty r).symm
  | fault hfail => exact (fails_outcome hfail).symm
  | step hstep _ ih => exact ih.trans (step_outcome hstep).symm

/- Every step lowers the potential, so the chain of steps comes to an end. -/
theorem exists_completes (interval : Nat) (s : State g σ) :
    ∃ n, Completes interval n s (s.outcome interval) := by
  induction hp : potential s.pending using Nat.strongRecOn generalizing s with
  | ind p ih =>
    obtain ⟨pending, r⟩ := s
    by_cases hempty : pending = #[]
    · subst hempty
      refine ⟨0, ?_⟩
      rw [State.outcome, loop_empty]
      exact .done r
    · obtain ⟨waiting, f, rfl⟩ := Array.exists_push_of_ne_empty hempty
      cases hstep : f.step waiting.size (r.arrive interval) with
      | error e =>
        have hfail : Fails interval ⟨waiting.push f, r⟩ e := .intro hstep
        refine ⟨1, ?_⟩
        rw [fails_outcome hfail]
        exact .fault hfail
      | ok left =>
        obtain ⟨children, next⟩ := left
        have hlt : potential (waiting ++ children) < p := by
          have hchildren := potential_children_lt hstep
          rw [← hp, potential_append, potential_push]
          omega
        obtain ⟨n, hn⟩ := ih _ hlt ⟨waiting ++ children, next⟩ rfl
        have hs : Step interval ⟨waiting.push f, r⟩ ⟨waiting ++ children, next⟩ := .intro hstep
        refine ⟨n + 1, ?_⟩
        rw [step_outcome hs]
        exact .step hs hn

/- An evaluation that ends well picks a variant of the entry rule and runs from its frame. -/
theorem exists_completes_of_ok {source : σ} {e : Evaluation α}
    (he : (g.evaluateFrom interval source).result = .ok e) :
    ∃ i source' n o, g.pick entryRule source = .ok (i, source') ∧
      Completes interval n (⟨#[⟨i, 0, 0, .identity⟩], { source := source' }⟩ : State g σ) o ∧
      o.result = .ok e := by
  unfold evaluateFrom at he
  split at he
  · rename_i i source' hpick
    obtain ⟨n, hrun⟩ := exists_completes interval
      (⟨#[⟨i, 0, 0, .identity⟩], { source := source' }⟩ : State g σ)
    exact ⟨i, source', n, _, hpick, hrun, he⟩
  · cases he

end Machine

/- The grammar whose only rule calls itself twice and places a box, and begins anew behind its first
level, with room for two frames. -/
def relay : Grammar Float :=
  add { maxDepth := 2, maxDepth_pos := Nat.two_pos }
    { name := entryRule
      maxDepth? := some 1
      successor? := some entryRule
      statements := [⟨.call entryRule, .identity, 2⟩, ⟨.place "box", .identity, 1⟩] }

end ProceduralShapes.Grammar
