import Mathlib.Data.List.Chain
import ProceduralShapes.Proofs.Grammar.Census

/-!
# Notices

Notice of the placements is given where a frame is taken off, if there are `interval` more of them
than at the last notice. So no notice comes early, and once a frame is taken off none is overdue
(`notices_keep_time`). Nothing that an evaluation comes to depends on them. The statements of the
last frame are run behind the last of these places, and what they place goes without notice
(`unreported_behind_last_frame`).
-/

namespace ProceduralShapes.Grammar

variable {α σ : Type} {g : Grammar α} {interval : Nat}

/- The number that the last notice gave, zero where there was none. -/
def lastNotice (notified : Array Nat) : Nat := notified.back?.getD 0

theorem lastNotice_push (notified : Array Nat) (n : Nat) : lastNotice (notified.push n) = n := by
  rw [lastNotice, Array.back?_push, Option.getD_some]

theorem getLast?_cons_notices (notified : Array Nat) :
    (0 :: notified.toList).getLast? = some (lastNotice notified) := by
  rw [List.getLast?_cons, Array.getLast?_toList, lastNotice]

/-! ### What a notice leaves behind -/

/- Notices lie `interval` apart, the first of them from zero, and none tells of placements to
come. -/
structure Run.Noted (interval : Nat) (r : Run α σ) : Prop where
  spaced : (0 :: r.notified.toList).IsChain fun c d => c + interval ≤ d
  reported_eq : r.reported = lastNotice r.notified
  reported_le : r.reported ≤ r.placed.size
  interval_le : r.reported = 0 ∨ interval ≤ r.reported

theorem noted_initial (source : σ) : ({ source } : Run α σ).Noted interval :=
  ⟨.singleton 0, rfl, Nat.le_refl 0, .inl rfl⟩

theorem arrive_of_early {r : Run α σ} (h : interval = 0 ∨ r.placed.size < r.reported + interval) :
    (r.arrive interval).reported = r.reported ∧ (r.arrive interval).notified = r.notified := by
  unfold Run.arrive
  dsimp only
  rw [if_pos h]
  exact ⟨rfl, rfl⟩

theorem arrive_of_due {r : Run α σ} (h : ¬(interval = 0 ∨ r.placed.size < r.reported + interval)) :
    (r.arrive interval).reported = r.placed.size ∧
      (r.arrive interval).notified = r.notified.push r.placed.size := by
  unfold Run.arrive
  dsimp only
  rw [if_neg h]
  exact ⟨rfl, rfl⟩

theorem placed_lt_of_arrive (hpos : 0 < interval) (r : Run α σ) :
    r.placed.size < (r.arrive interval).reported + interval := by
  by_cases h : interval = 0 ∨ r.placed.size < r.reported + interval
  · rw [(arrive_of_early h).1]
    omega
  · rw [(arrive_of_due h).1]
    omega

theorem Run.Noted.arrive {r : Run α σ} (hr : r.Noted interval) :
    (r.arrive interval).Noted interval := by
  by_cases h : interval = 0 ∨ r.placed.size < r.reported + interval
  · obtain ⟨hreported, hnotified⟩ := arrive_of_early h
    constructor
    · rw [hnotified]
      exact hr.spaced
    · rw [hreported, hnotified]
      exact hr.reported_eq
    · rw [hreported, arrive_placed]
      exact hr.reported_le
    · rw [hreported]
      exact hr.interval_le
  · obtain ⟨hreported, hnotified⟩ := arrive_of_due h
    constructor
    · rw [hnotified, Array.toList_push, ← List.cons_append]
      refine hr.spaced.append (.singleton _) ?_
      intro c hc d hd
      rw [getLast?_cons_notices, ← hr.reported_eq, Option.mem_some] at hc
      rw [List.head?_cons, Option.mem_some] at hd
      omega
    · rw [hreported, hnotified, lastNotice_push]
    · rw [hreported, arrive_placed]
    · omega

/- The sum that decides about a notice fits in a word, however long the interval. -/
theorem Run.Noted.add_lt {r : Run α σ} (hr : r.Noted interval) (hinterval : interval < UInt64.size)
    (hplaced : r.placed.size < 2 ^ 63) : r.reported + interval < UInt64.size := by
  have hle := hr.reported_le
  have hsize : UInt64.size = 2 ^ 63 + 2 ^ 63 := rfl
  rcases hr.interval_le with hnone | hlong
  · rw [hnone, Nat.zero_add]
    exact hinterval
  · omega

/-! ### Moves -/

/- Placements may be made from the first run to the second, but no notice is given. -/
structure Run.Silent (r next : Run α σ) : Prop where
  reported_eq : next.reported = r.reported
  notified_eq : next.notified = r.notified
  placed_le : r.placed.size ≤ next.placed.size

theorem Run.Noted.silent {r next : Run α σ} (hr : r.Noted interval) (h : r.Silent next) :
    next.Noted interval := by
  obtain ⟨hreported, hnotified, hplaced⟩ := h
  constructor
  · rw [hnotified]
    exact hr.spaced
  · rw [hreported, hnotified]
    exact hr.reported_eq
  · rw [hreported]
    exact hr.reported_le.trans hplaced
  · rw [hreported]
    exact hr.interval_le

/- What has been produced by the moment. -/
def Moment.run : Moment g σ → Run α σ
  | .head s => s.run
  | .amid a => { a.run with source := a.work.source, placed := a.work.placed }

section Moves
variable [Scalar α] [RandomSource σ] {source : σ}

theorem silent_of_leaves {f : Frame g} {below : Nat} {r next : Run α σ}
    {children : Array (Frame g)} (h : f.Leaves below r children next) : r.Silent next := by
  cases h with
  | dropped => exact ⟨rfl, rfl, Nat.le_refl _⟩
  | ended => exact ⟨rfl, rfl, Nat.le_refl _⟩
  | restarted => exact ⟨rfl, rfl, Nat.le_refl _⟩
  | expanded hkept hlimit hwork =>
    have hplaced := (size_of_all hwork).2
    exact ⟨rfl, rfl, by dsimp only; omega⟩

theorem placed_le_of_once {f : Frame g} {s : Statement α} {w w' : Work g σ}
    (h : w.once f s = .ok w') : w.placed.size ≤ w'.placed.size := by
  obtain ⟨source, t, children, placed⟩ := w
  unfold Work.once at h
  dsimp only at h
  split at h
  · split at h
    · cases h
      exact Nat.le_refl _
    · cases h
  · cases h
    rw [Array.size_push]
    exact Nat.le_succ _

/- The evaluation takes a frame off in this state. -/
def Starts (g : Grammar α) (interval : Nat) (source : σ) (s : State g σ) : Prop :=
  g.Visits interval source (.head s) ∧ s.pending ≠ #[]

/- A move arrives at a frame, or gives no notice. -/
theorem run_of_moves {m m' : Moment g σ} (h : Moves interval m m') :
    (∃ s, m = .head s ∧ s.pending ≠ #[] ∧ (s.run.arrive interval).Silent m'.run) ∨
      m.run.Silent m'.run := by
  cases h with
  | leave hstop hstep => exact .inl ⟨_, rfl, by simp, silent_of_leaves (leaves_of_step hstep)⟩
  | enter hgo => exact .inl ⟨_, rfl, by simp, rfl, rfl, Nat.le_refl _⟩
  | act htodo honce => exact .inr ⟨rfl, rfl, placed_le_of_once honce⟩
  | finish htodo => exact .inr ⟨rfl, rfl, Nat.le_refl _⟩

theorem noted_of_visits {m : Moment g σ} (h : g.Visits interval source m) :
    m.run.Noted interval := by
  refine h.induction (P := fun m => m.run.Noted interval)
    (fun i source' => noted_initial source') ?_
  intro m m' hm hmove
  rcases run_of_moves hmove with ⟨s, rfl, -, hsilent⟩ | hsilent
  · exact hm.arrive.silent hsilent
  · exact hm.silent hsilent

theorem noticed_of_starts (hpos : 0 < interval) {s : State g σ}
    (hs : g.Starts interval source s) :
    lastNotice (s.run.arrive interval).notified ≤ s.run.placed.size ∧
      s.run.placed.size < lastNotice (s.run.arrive interval).notified + interval := by
  have hnoted : s.run.Noted interval := noted_of_visits hs.1
  have harrived := hnoted.arrive
  have hle := harrived.reported_le
  have hlt := placed_lt_of_arrive hpos s.run
  rw [arrive_placed] at hle
  rw [harrived.reported_eq] at hle hlt
  exact ⟨hle, hlt⟩

/-! ### Where notices are given -/

/- Each of the notices was given where a frame was taken off, after those before it, and told of the
placements made by then. -/
def Announced (g : Grammar α) (interval : Nat) (source : σ) (notices : List Nat) : Prop :=
  ∀ before c behind, notices = before ++ c :: behind →
    ∃ s, g.Starts interval source s ∧ s.run.placed.size = c ∧
      s.run.notified.toList = before ∧ (s.run.arrive interval).notified.toList = before ++ [c]

theorem announced_nil : g.Announced interval source [] := by
  intro before c behind h
  simp at h

theorem announced_arrive {s : State g σ} (hs : g.Starts interval source s)
    (h : g.Announced interval source s.run.notified.toList) :
    g.Announced interval source (s.run.arrive interval).notified.toList := by
  by_cases hearly : interval = 0 ∨ s.run.placed.size < s.run.reported + interval
  · rw [(arrive_of_early hearly).2]
    exact h
  · have hnotified := (arrive_of_due hearly).2
    have hnotices : (s.run.arrive interval).notified.toList =
        s.run.notified.toList ++ [s.run.placed.size] := by
      rw [hnotified, Array.toList_push]
    intro before c behind hsplit
    rw [hnotices] at hsplit
    -- The notice is the one given here, or was there before.
    rcases List.eq_nil_or_concat behind with rfl | ⟨behind, d, rfl⟩
    · obtain ⟨hbefore, hc⟩ := List.append_inj' hsplit rfl
      have hsize : s.run.placed.size = c := (List.cons.inj hc).1
      exact ⟨s, hs, hsize, hbefore, by rw [hnotices, hbefore, hsize]⟩
    · rw [List.concat_eq_append, ← List.cons_append, ← List.append_assoc] at hsplit
      exact h before c behind (List.append_inj' hsplit rfl).1

theorem announced_of_visits {m : Moment g σ} (h : g.Visits interval source m) :
    g.Announced interval source m.run.notified.toList := by
  refine h.induction_visited (P := fun m => g.Announced interval source m.run.notified.toList)
    (fun i source' _ => announced_nil) ?_
  intro m m' hvisit hm hmove
  rcases run_of_moves hmove with ⟨s, rfl, hpending, hsilent⟩ | hsilent
  · rw [hsilent.notified_eq]
    exact announced_arrive ⟨hvisit, hpending⟩ hm
  · rw [hsilent.notified_eq]
    exact hm

/-! ### How evaluations end -/

/- The notices of a run from a state visited are those at the end, where no frame is pending, or at
a frame that asks for a rule that cannot be chosen. -/
theorem Visits.exists_notified {n : Nat} {s : State g σ} {o : Outcome α}
    (h : g.Visits interval source (.head s)) (hrun : Completes interval n s o) :
    (∃ r, g.Visits interval source (.head ⟨#[], r⟩) ∧ o.notified = r.notified) ∨
      ∃ t, g.Starts interval source t ∧ o.notified = (t.run.arrive interval).notified := by
  induction hrun with
  | done r => exact .inl ⟨r, h, rfl⟩
  | fault hfail =>
    obtain ⟨hstep⟩ := hfail
    exact .inr ⟨_, ⟨h, by simp⟩, rfl⟩
  | step hstep _ ih => exact ih (h.step hstep)

theorem evaluateFrom_cases (g : Grammar α) (interval : Nat) (source : σ) :
    (∃ e, g.evaluateFrom interval source = ⟨#[], .error e⟩) ∨
      ∃ s n, g.Starts interval source s ∧
        Completes interval n s (g.evaluateFrom interval source) := by
  cases hpick : g.pick entryRule source with
  | error e =>
    refine .inl ⟨e, ?_⟩
    rw [evaluateFrom, hpick]
  | ok picked =>
    obtain ⟨i, source'⟩ := picked
    let first : State g σ := ⟨#[⟨i, 0, 0, .identity⟩], { source := source' }⟩
    have hfirst : g.Visits interval source (.head first) := ⟨i, source', hpick, .refl⟩
    have houtcome : first.outcome interval = g.evaluateFrom interval source := hfirst.outcome_eq
    obtain ⟨n, hrun⟩ := exists_completes interval first
    rw [houtcome] at hrun
    exact .inr ⟨first, n, ⟨hfirst, by simp [first]⟩, hrun⟩

theorem notified_spaced (g : Grammar α) (interval : Nat) (source : σ) :
    (0 :: (g.evaluateFrom interval source).notified.toList).IsChain (fun c d => c + interval ≤ d) ∧
      g.Announced interval source (g.evaluateFrom interval source).notified.toList := by
  rcases g.evaluateFrom_cases interval source with ⟨e, herror⟩ | ⟨s, n, hs, hrun⟩
  · rw [herror]
    exact ⟨.singleton 0, announced_nil⟩
  · rcases hs.1.exists_notified hrun with ⟨r, hr, hnotified⟩ | ⟨t, ht, hnotified⟩
    · rw [hnotified]
      exact ⟨(noted_of_visits hr).spaced, announced_of_visits hr⟩
    · rw [hnotified]
      exact ⟨(noted_of_visits ht.1).arrive.spaced, announced_arrive ht (announced_of_visits ht.1)⟩

theorem notified_zero (g : Grammar α) (source : σ) : (g.evaluateFrom 0 source).notified = #[] := by
  have hannounced := (notified_spaced g 0 source).2
  rw [← Array.toList_eq_nil_iff]
  cases hnotices : (g.evaluateFrom 0 source).notified.toList with
  | nil => rfl
  | cons c behind =>
    obtain ⟨s, -, -, hbefore, hgiven⟩ := hannounced [] c behind hnotices
    rw [(arrive_of_early (.inl rfl)).2, hbefore] at hgiven
    cases hgiven

/- Notices change nothing but themselves. They are `interval` placements apart, each is given where
a frame is taken off and tells of the placements made by then, and once a frame is taken off fewer
than `interval` placements wait for the next. The sum that decides about it does not overflow. -/
theorem notices_keep_time (g : Grammar α) (source : σ) :
    (∀ interval, (g.evaluateFrom interval source).result = (g.evaluateFrom 0 source).result) ∧
    (g.evaluateFrom 0 source).notified = #[] ∧
    ∀ interval, 0 < interval →
      (0 :: (g.evaluateFrom interval source).notified.toList).IsChain
        (fun c d => c + interval ≤ d) ∧
      g.Announced interval source (g.evaluateFrom interval source).notified.toList ∧
      ∀ s, g.Starts interval source s →
        lastNotice (s.run.arrive interval).notified ≤ s.run.placed.size ∧
        s.run.placed.size < lastNotice (s.run.arrive interval).notified + interval ∧
        (interval < UInt64.size → s.run.placed.size < 2 ^ 63 →
          s.run.reported + interval < UInt64.size) := by
  refine ⟨?_, notified_zero g source, ?_⟩
  · intro interval
    exact (result_eq_derive g interval source).trans (result_eq_derive g 0 source).symm
  · intro interval hpos
    obtain ⟨hspaced, hannounced⟩ := notified_spaced g interval source
    refine ⟨hspaced, hannounced, ?_⟩
    intro s hs
    obtain ⟨hle, hlt⟩ := noticed_of_starts hpos hs
    exact ⟨hle, hlt, (noted_of_visits hs.1).add_lt⟩

/-! ### The last frame -/

/- An evaluation that ends well has taken off some frame last, with no other pending, and that frame
has left none. -/
theorem Visits.exists_last_frame {n : Nat} {s : State g σ} {o : Outcome α}
    (h : g.Visits interval source (.head s)) (hpending : s.pending ≠ #[])
    (hrun : Completes interval n s o) {e : Evaluation α} (he : o.result = .ok e) :
    ∃ (f : Frame g) (r next : Run α σ), g.Starts interval source ⟨#[f], r⟩ ∧
      f.step 0 (r.arrive interval) = .ok (#[], next) ∧
      o = ⟨next.notified, .ok ⟨next.placed, next.stats⟩⟩ := by
  induction hrun with
  | done r => exact absurd rfl hpending
  | fault => cases he
  | @step n s t o hstep hrest ih =>
    by_cases hlast : t.pending = #[]
    · cases hstep with
      | @intro waiting f r next children hleft =>
        obtain ⟨rfl, rfl⟩ := Array.append_eq_empty_iff.1 hlast
        refine ⟨f, r, next, ⟨h, hpending⟩, hleft, ?_⟩
        exact (completes_outcome hrest).trans (loop_empty next)
    · exact ih (h.step hstep) hlast he

/- When the last frame is taken off, fewer than `interval` placements wait for a notice. Those that
its own statements make are all that comes on top, and no notice is given of them. -/
theorem unreported_behind_last_frame (g : Grammar α) (source : σ) {interval : Nat}
    (hpos : 0 < interval) {e : Evaluation α}
    (he : (g.evaluateFrom interval source).result = .ok e) :
    ∃ (f : Frame g) (r next : Run α σ), g.Starts interval source ⟨#[f], r⟩ ∧
      f.step 0 (r.arrive interval) = .ok (#[], next) ∧ e = ⟨next.placed, next.stats⟩ ∧
      let noticed := lastNotice (g.evaluateFrom interval source).notified
      let last : Turn g := ⟨f, 0, #[]⟩
      noticed ≤ r.placed.size ∧ r.placed.size < noticed + interval ∧
      e.placed.size = r.placed.size + last.places ∧
      e.placed.size < noticed + interval + last.places ∧
      (last.places = 0 → e.placed.size < noticed + interval) := by
  rcases g.evaluateFrom_cases interval source with ⟨e', herror⟩ | ⟨s, n, hs, hrun⟩
  · rw [herror] at he
    cases he
  · obtain ⟨f, r, next, hstart, hstep, houtcome⟩ := hs.1.exists_last_frame hs.2 hrun he
    rw [houtcome] at he ⊢
    cases he
    refine ⟨f, r, next, hstart, hstep, rfl, ?_⟩
    obtain ⟨hle, hlt⟩ := noticed_of_starts hpos hstart
    rw [← (silent_of_leaves (leaves_of_step hstep)).notified_eq] at hle hlt
    have hplaced : next.placed.size = r.placed.size + (⟨f, 0, #[]⟩ : Turn g).places :=
      (adds_of_step hstep).placed
    dsimp only at hle hlt ⊢
    exact ⟨hle, hlt, hplaced, by omega, by omega⟩

end Moves

/- Its entry rule places two boxes and calls itself, down to the second call. -/
def hedge : Grammar Float :=
  add { maxDepth := 2, maxDepth_pos := Nat.two_pos }
    { name := entryRule,
      statements := [⟨.place "box", .identity, 2⟩, ⟨.call entryRule, .identity, 1⟩] }

/- Its frames are taken off behind 0, 2 and 4 boxes, and the one notice is given at the third. -/
theorem hedge_keeps_time : 0 < 3 ∧
    (hedge.evaluateFrom 3 (ChaCha.Generator.ofSeed 7)).notified = #[4] ∧
    [0, 4].IsChain (fun c d => c + 3 ≤ d) ∧
    ∃ s, hedge.Starts 3 (ChaCha.Generator.ofSeed 7) s ∧ s.run.placed.size = 4 ∧
      s.run.notified.toList = [] ∧ lastNotice (s.run.arrive 3).notified = 4 ∧
      4 < lastNotice (s.run.arrive 3).notified + 3 ∧ s.run.reported + 3 < UInt64.size := by
  have hpos : 0 < 3 := Nat.succ_pos 2
  have hnotified : (hedge.evaluateFrom 3 (ChaCha.Generator.ofSeed 7)).notified = #[4] := by
    decide +kernel
  obtain ⟨hspaced, hannounced, hstarts⟩ :=
    (notices_keep_time hedge (ChaCha.Generator.ofSeed 7)).2.2 3 hpos
  rw [hnotified] at hspaced hannounced
  obtain ⟨s, hs, hsize, hbefore, hgiven⟩ := hannounced [] 4 [] rfl
  obtain ⟨-, hlt, hsum⟩ := hstarts s hs
  have hlast : lastNotice (s.run.arrive 3).notified = 4 := by
    rw [lastNotice, ← Array.getLast?_toList, hgiven]
    rfl
  rw [hsize] at hlt hsum
  exact ⟨hpos, hnotified, hspaced, s, hs, hsize, hbefore, hlast, hlt,
    hsum (by decide) (by decide)⟩

/- Its entry rule places three boxes. -/
def bush : Grammar Float :=
  add { maxDepth := 1, maxDepth_pos := Nat.one_pos }
    { name := entryRule, statements := [⟨.place "box", .identity, 3⟩] }

theorem exists_evaluation_bush : ∃ e,
    (bush.evaluateFrom 3 (ChaCha.Generator.ofSeed 0)).result = .ok e ∧ e.placed.size = 3 ∧
      (bush.evaluateFrom 3 (ChaCha.Generator.ofSeed 0)).notified = #[] := by
  have hsize : ((bush.evaluateFrom 3 (ChaCha.Generator.ofSeed 0)).result.map
      fun e => e.placed.size) = .ok 3 := by decide +kernel
  have hnotified : (bush.evaluateFrom 3 (ChaCha.Generator.ofSeed 0)).notified = #[] := by
    decide +kernel
  obtain ⟨e, he, hplaced⟩ := Fallible.map_eq_ok_iff.1 hsize
  exact ⟨e, he, hplaced, hnotified⟩

theorem bush_last_frame :
    ∃ (e : Evaluation Float) (f : Frame bush) (r : Run Float ChaCha.Generator), 0 < 3 ∧
    (bush.evaluateFrom 3 (ChaCha.Generator.ofSeed 0)).result = .ok e ∧
    bush.Starts 3 (ChaCha.Generator.ofSeed 0) ⟨#[f], r⟩ ∧ r.placed.size < 3 ∧
    3 = r.placed.size + (⟨f, 0, #[]⟩ : Turn bush).places := by
  obtain ⟨e, he, hsize, hnotified⟩ := exists_evaluation_bush
  obtain ⟨f, r, next, hstart, -, -, -, hlt, hplaced, -⟩ :=
    unreported_behind_last_frame bush (ChaCha.Generator.ofSeed 0) (Nat.succ_pos 2) he
  rw [hnotified] at hlt
  rw [hsize] at hplaced
  exact ⟨e, f, r, Nat.succ_pos 2, he, hstart, hlt, hplaced⟩

/- A whole interval of placements goes without notice, since one frame makes them all. -/
theorem bush_goes_unnoticed : ∃ e,
    (bush.evaluateFrom 3 (ChaCha.Generator.ofSeed 0)).result = .ok e ∧
    ¬e.placed.size < lastNotice (bush.evaluateFrom 3 (ChaCha.Generator.ofSeed 0)).notified + 3 := by
  obtain ⟨e, he, hsize, hnotified⟩ := exists_evaluation_bush
  refine ⟨e, he, ?_⟩
  rw [hsize, hnotified]
  decide

end ProceduralShapes.Grammar
