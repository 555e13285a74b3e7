import Mathlib.Logic.Relation
import ProceduralShapes.Proofs.Grammar.Recursion

/-!
# The moments of an evaluation

A step of the machine deals with a whole frame and so hides what is pending while the statements of
the frame are run. Here an evaluation goes from moment to moment (`Moves`): it is at the head of its
loop, or between two actions of a frame. Every step is made of moves (`reaches_of_step`), and no
move changes what the evaluation comes to (`moves_outcome`).
-/

namespace ProceduralShapes.Grammar

variable {α σ : Type} {g : Grammar α}

/- The statements of `frame` are being run: `waiting` lies below it, `todo` is what is left of its
actions, and `work` has come of those done. -/
structure Midway (g : Grammar α) (σ : Type) where
  waiting : Array (Frame g)
  frame : Frame g
  todo : List (Action × Transform α)
  work : Work g σ
  run : Run α σ

inductive Moment (g : Grammar α) (σ : Type)
  | head (s : State g σ)
  | amid (a : Midway g σ)

/- The frames on the stack. The frame whose statements are run has been taken off. -/
def Moment.stack : Moment g σ → Array (Frame g)
  | .head s => s.pending
  | .amid a => a.waiting ++ a.work.children

/- The statements of the frame are not run: it is dropped, or it has reached its limit. -/
def Frame.Stops (f : Frame g) (below : Nat) : Prop := f.Dropped below ∨ f.limit ≤ f.depth

theorem kept_of_not_stops {f : Frame g} {below : Nat} (h : ¬f.Stops below) :
    ¬f.Dropped below ∧ f.depth < f.limit := by
  have hboth := not_or.1 h
  exact ⟨hboth.1, Nat.not_le.1 hboth.2⟩

namespace Midway

/- Before the first action of a frame. -/
def start (waiting : Array (Frame g)) (f : Frame g) (r : Run α σ) : Midway g σ :=
  ⟨waiting, f, f.rule.repetitions, ⟨r.source, f.transform, #[], r.placed⟩, r⟩

/- The state that a frame leaves behind its last action. -/
def finish (a : Midway g σ) : State g σ :=
  ⟨a.waiting ++ a.work.children,
    { a.run with
      source := a.work.source
      placed := a.work.placed
      stats := { a.run.stats with
        peak := max a.run.stats.peak (a.waiting.size + a.work.children.size) } }⟩

end Midway

section Moves
variable [Scalar α] [RandomSource σ] {interval : Nat}

inductive Moves (interval : Nat) : Moment g σ → Moment g σ → Prop
  | leave {waiting children : Array (Frame g)} {f : Frame g} {r next : Run α σ}
      (hstop : f.Stops waiting.size)
      (h : f.step waiting.size (r.arrive interval) = .ok (children, next)) :
      Moves interval (.head ⟨waiting.push f, r⟩) (.head ⟨waiting ++ children, next⟩)
  | enter {waiting : Array (Frame g)} {f : Frame g} {r : Run α σ} (hgo : ¬f.Stops waiting.size) :
      Moves interval (.head ⟨waiting.push f, r⟩) (.amid (.start waiting f (r.arrive interval)))
  | act {a : Midway g σ} {action : Action} {u : Transform α} {rest : List (Action × Transform α)}
      {w : Work g σ} (htodo : a.todo = (action, u) :: rest)
      (h : a.work.once a.frame ⟨action, u, 1⟩ = .ok w) :
      Moves interval (.amid a) (.amid { a with todo := rest, work := w })
  | finish {a : Midway g σ} (htodo : a.todo = []) : Moves interval (.amid a) (.head a.finish)

/- The moment comes at the first one or after it. -/
abbrev Reaches (interval : Nat) : Moment g σ → Moment g σ → Prop :=
  Relation.ReflTransGen (Moves interval)

/-! ### Steps are made of moves -/

/- Running a frame is doing its actions one after the other. -/
theorem step_of_not_stops {f : Frame g} {waiting : Array (Frame g)} {r : Run α σ}
    (h : ¬f.Stops waiting.size) :
    f.step waiting.size r =
      match (Midway.start waiting f r).work.each f f.rule.repetitions with
      | .ok w => .ok (w.children, { Midway.start waiting f r with work := w }.finish.run)
      | .error e => .error e := by
  obtain ⟨hkept, hlimit⟩ := kept_of_not_stops h
  have hall : Work.all f f.rule.statements ⟨r.source, f.transform, #[], r.placed⟩ =
      (Midway.start waiting f r).work.each f f.rule.repetitions := all_eq_each f _ _
  rw [step_of_lt_limit hkept hlimit, Frame.expand]
  dsimp only
  rw [hall]
  cases (Midway.start waiting f r).work.each f f.rule.repetitions with
  | ok w => rfl
  | error e => rfl

theorem reaches_of_each {a : Midway g σ} {w : Work g σ} (h : a.work.each a.frame a.todo = .ok w) :
    Reaches interval (.amid a) (.amid { a with todo := [], work := w }) := by
  obtain ⟨waiting, f, todo, work, r⟩ := a
  induction todo generalizing work with
  | nil =>
    cases h
    exact .refl
  | cons x rest ih =>
    obtain ⟨action, u⟩ := x
    simp only [Work.each] at h
    cases honce : work.once f ⟨action, u, 1⟩ with
    | error e =>
      rw [honce] at h
      cases h
    | ok next =>
      rw [honce] at h
      have hfirst : Moves interval (.amid ⟨waiting, f, (action, u) :: rest, work, r⟩)
          (.amid ⟨waiting, f, rest, next, r⟩) := .act rfl honce
      exact .head hfirst (ih next h)

theorem reaches_of_step {s t : State g σ} (h : Step interval s t) :
    Reaches interval (.head s) (.head t) := by
  obtain ⟨hstep⟩ := h
  rename_i waiting f r next children
  by_cases hstop : f.Stops waiting.size
  · exact .single (.leave hstop hstep)
  · rw [step_of_not_stops hstop] at hstep
    cases heach : (Midway.start waiting f (r.arrive interval)).work.each f f.rule.repetitions with
    | error e =>
      rw [heach] at hstep
      cases hstep
    | ok w =>
      rw [heach] at hstep
      cases hstep
      have hrun : Reaches interval (.amid (Midway.start waiting f (r.arrive interval))) _ :=
        reaches_of_each heach
      exact .head (.enter hstop) (hrun.tail (.finish rfl))

/-! ### Moves lie on the run -/

/- What the loop makes of a moment. -/
def Moment.outcome (interval : Nat) : Moment g σ → Outcome α
  | .head s => s.outcome interval
  | .amid a =>
    match a.work.each a.frame a.todo with
    | .ok w => { a with work := w }.finish.outcome interval
    | .error e => ⟨a.run.notified, .error e⟩

theorem moves_outcome {m m' : Moment g σ} (h : Moves interval m m') :
    m.outcome interval = m'.outcome interval := by
  cases h with
  | leave hstop h => exact step_outcome (.intro h)
  | @enter waiting f r hgo =>
    simp only [Moment.outcome]
    rw [State.outcome, loop_push, step_of_not_stops hgo]
    have htodo : (Midway.start waiting f (r.arrive interval)).todo = f.rule.repetitions := rfl
    have hframe : (Midway.start waiting f (r.arrive interval)).frame = f := rfl
    rw [htodo, hframe]
    cases (Midway.start waiting f (r.arrive interval)).work.each f f.rule.repetitions with
    | ok w => rfl
    | error e => rfl
  | act htodo h =>
    simp only [Moment.outcome, htodo, Work.each, h]
    rfl
  | finish htodo =>
    simp only [Moment.outcome, htodo, Work.each]
    rfl

theorem reaches_outcome {m m' : Moment g σ} (h : Reaches interval m m') :
    m.outcome interval = m'.outcome interval := by
  induction h with
  | refl => rfl
  | tail _ hmove ih => exact ih.trans (moves_outcome hmove)

end Moves

/-! ### The moments of a whole evaluation -/

section Visits
variable [Scalar α] [RandomSource σ] {interval : Nat} {source : σ}

/- The evaluation of the grammar comes to this moment. -/
def Visits (g : Grammar α) (interval : Nat) (source : σ) (m : Moment g σ) : Prop :=
  ∃ i source', g.pick entryRule source = .ok (i, source') ∧
    Reaches interval (.head ⟨#[⟨i, 0, 0, .identity⟩], { source := source' }⟩) m

theorem Visits.outcome_eq {m : Moment g σ} (h : g.Visits interval source m) :
    m.outcome interval = g.evaluateFrom interval source := by
  obtain ⟨i, source', hpick, hreach⟩ := h
  rw [← reaches_outcome hreach, evaluateFrom, hpick]
  rfl

theorem Visits.move {m m' : Moment g σ} (h : g.Visits interval source m)
    (hmove : Moves interval m m') : g.Visits interval source m' := by
  obtain ⟨i, source', hpick, hreach⟩ := h
  exact ⟨i, source', hpick, hreach.tail hmove⟩

theorem Visits.step {s t : State g σ} (h : g.Visits interval source (.head s))
    (hstep : Step interval s t) : g.Visits interval source (.head t) := by
  obtain ⟨i, source', hpick, hreach⟩ := h
  exact ⟨i, source', hpick, hreach.trans (reaches_of_step hstep)⟩

/- An evaluation that ends well comes to a moment where no frame is pending. -/
theorem Visits.exists_end {n : Nat} {s : State g σ} {o : Outcome α}
    (h : g.Visits interval source (.head s)) (hrun : Completes interval n s o) {e : Evaluation α}
    (he : o.result = .ok e) :
    ∃ r, g.Visits interval source (.head ⟨#[], r⟩) ∧ e = ⟨r.placed, r.stats⟩ := by
  induction hrun with
  | done r =>
    cases he
    exact ⟨r, h, rfl⟩
  | fault => cases he
  | step hstep _ ih => exact ih (h.step hstep) he

theorem exists_end_of_ok {e : Evaluation α}
    (he : (g.evaluateFrom interval source).result = .ok e) :
    ∃ r, g.Visits interval source (.head ⟨#[], r⟩) ∧ e = ⟨r.placed, r.stats⟩ := by
  obtain ⟨i, source', n, o, hpick, hrun, ho⟩ := exists_completes_of_ok he
  exact Visits.exists_end ⟨i, source', hpick, .refl⟩ hrun ho

/- What holds when the entry rule has been picked and outlasts every move of the evaluation holds at
every moment. -/
theorem Visits.induction_visited {P : Moment g σ → Prop}
    (hfirst : ∀ i source', g.pick entryRule source = .ok (i, source') →
      P (.head ⟨#[⟨i, 0, 0, .identity⟩], { source := source' }⟩))
    (hmove : ∀ m m', g.Visits interval source m → P m → Moves interval m m' → P m')
    {m : Moment g σ} (h : g.Visits interval source m) : P m := by
  obtain ⟨i, source', hpick, hreach⟩ := h
  induction hreach with
  | refl => exact hfirst i source' hpick
  | tail hreach hnext ih => exact hmove _ _ ⟨i, source', hpick, hreach⟩ ih hnext

theorem Visits.induction {P : Moment g σ → Prop}
    (hfirst : ∀ i source', P (.head ⟨#[⟨i, 0, 0, .identity⟩], { source := source' }⟩))
    (hmove : ∀ m m', P m → Moves interval m m' → P m') {m : Moment g σ}
    (h : g.Visits interval source m) : P m :=
  h.induction_visited (fun i source' _ => hfirst i source') fun m m' _ hm => hmove m m' hm

end Visits

end ProceduralShapes.Grammar
