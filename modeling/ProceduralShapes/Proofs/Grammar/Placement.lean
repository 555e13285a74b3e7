import ProceduralShapes.Proofs.Grammar.Machine

/-!
# Transforms of placements

What holds of the identity, and of `t * s.transform` for every statement `s` when it holds of `t`,
holds of the transform of every pending frame and of every placement, whatever is drawn
(`Grammar.Preserves`, `placed_of_preserves`).
-/

namespace ProceduralShapes.Grammar

variable {α σ : Type} {g : Grammar α} [Scalar α] [RandomSource σ] {P : Transform α → Prop}

/- The property holds at the start and outlasts every statement of the grammar. -/
structure Preserves (g : Grammar α) (P : Transform α → Prop) : Prop where
  identity : P .identity
  statement : ∀ v ∈ g.variants, ∀ s ∈ v.statements, ∀ t, P t → P (t * s.transform)

/-! ### Statements -/

/- The property holds of all transforms that the work of a frame has come to. -/
structure Work.All (P : Transform α → Prop) (w : Work g σ) : Prop where
  current : P w.transform
  children : ∀ c ∈ w.children, P c.transform
  placed : ∀ p ∈ w.placed, P p.transform

section Work
variable {f : Frame g} {w w' : Work g σ}

theorem Work.All.once {s : Statement α} (hs : ∀ t, P t → P (t * s.transform)) (h : w.All P)
    (hw : w.once f s = .ok w') : w'.All P := by
  obtain ⟨source, t, children, placed⟩ := w
  have ht : P (t * s.transform) := hs t h.current
  unfold Work.once at hw
  dsimp only at hw
  split at hw
  · split at hw
    · cases hw
      refine ⟨ht, ?_, h.placed⟩
      intro c hc
      rcases Array.mem_push.1 hc with hc | rfl
      · exact h.children c hc
      · exact ht
    · cases hw
  · cases hw
    refine ⟨ht, h.children, ?_⟩
    intro p hp
    rcases Array.mem_push.1 hp with hp | rfl
    · exact h.placed p hp
    · exact ht

theorem Work.All.times {s : Statement α} (hs : ∀ t, P t → P (t * s.transform)) (n : Nat)
    (h : w.All P) (hw : Work.times f s n w = .ok w') : w'.All P := by
  induction n generalizing w with
  | zero =>
    cases hw
    exact h
  | succ n ih =>
    unfold Work.times at hw
    split at hw
    · rename_i next honce
      exact ih (h.once hs honce) hw
    · cases hw

theorem Work.All.all {ss : List (Statement α)} (hs : ∀ s ∈ ss, ∀ t, P t → P (t * s.transform))
    (h : w.All P) (hw : Work.all f ss w = .ok w') : w'.All P := by
  induction ss generalizing w with
  | nil =>
    cases hw
    exact h
  | cons s ss ih =>
    unfold Work.all at hw
    split at hw
    · rename_i next htimes
      have hnext : next.All P := h.times (hs s List.mem_cons_self) s.count htimes
      exact ih (fun s hmem => hs s (List.mem_cons_of_mem _ hmem)) hnext hw
    · cases hw

end Work

/-! ### Steps and runs -/

/- The property holds of the transforms of all frames pending and of all placements. -/
structure State.All (P : Transform α → Prop) (s : State g σ) : Prop where
  pending : ∀ f ∈ s.pending, P f.transform
  placed : ∀ p ∈ s.run.placed, P p.transform

theorem leaves_all {f : Frame g} {below : Nat} {r next : Run α σ} {children : Array (Frame g)}
    (hP : g.Preserves P) (hf : P f.transform) (hr : ∀ p ∈ r.placed, P p.transform)
    (h : f.Leaves below r children next) :
    (∀ c ∈ children, P c.transform) ∧ ∀ p ∈ next.placed, P p.transform := by
  cases h with
  | dropped => exact ⟨by simp, hr⟩
  | ended => exact ⟨by simp, hr⟩
  | restarted =>
    refine ⟨?_, hr⟩
    intro c hc
    rw [Array.mem_singleton.1 hc]
    exact hf
  | expanded _ _ hwork =>
    have hstart : Work.All P (⟨r.source, f.transform, #[], r.placed⟩ : Work g σ) :=
      ⟨hf, by simp, hr⟩
    have hrule : f.rule ∈ g.variants := Array.getElem_mem f.variant.isLt
    have hend := hstart.all (hP.statement f.rule hrule) hwork
    exact ⟨hend.children, hend.placed⟩

theorem step_all {interval : Nat} {s t : State g σ} (hP : g.Preserves P) (hs : s.All P)
    (h : Step interval s t) : t.All P := by
  obtain ⟨hstep⟩ := h
  rename_i waiting f r next children
  have harrive : ∀ p ∈ (r.arrive interval).placed, P p.transform := by
    rw [arrive_placed]
    exact hs.placed
  have hf : P f.transform := hs.pending f (Array.mem_push_self ..)
  obtain ⟨hchildren, hnext⟩ := leaves_all hP hf harrive (leaves_of_step hstep)
  refine ⟨?_, hnext⟩
  intro c hc
  rcases Array.mem_append.1 hc with hc | hc
  · exact hs.pending c (Array.mem_push_of_mem _ hc)
  · exact hchildren c hc

theorem completes_all {interval n : Nat} {s : State g σ} {o : Outcome α} (hP : g.Preserves P)
    (hs : s.All P) (h : Completes interval n s o) {e : Evaluation α} (he : o.result = .ok e) :
    ∀ p ∈ e.placed, P p.transform := by
  induction h with
  | done r =>
    cases he
    exact hs.placed
  | fault => cases he
  | step hstep _ ih => exact ih (step_all hP hs hstep) he

theorem placed_of_preserves {interval : Nat} {source : σ} {e : Evaluation α}
    (hP : g.Preserves P) (he : (g.evaluateFrom interval source).result = .ok e) :
    ∀ p ∈ e.placed, P p.transform := by
  obtain ⟨i, source', n, o, -, hrun, ho⟩ := exists_completes_of_ok he
  refine completes_all hP ⟨?_, by simp⟩ hrun ho
  intro f hf
  rw [Array.mem_singleton.1 hf]
  exact hP.identity

end ProceduralShapes.Grammar
