import ProceduralShapes.Proofs.Fallible
import ProceduralShapes.Proofs.Grammar.Recursion

/-!
# The shapes that are placed

Whatever is drawn, an evaluation places only shapes that some statement of its grammar places
(`shape_mem_of_evaluates`).
-/

namespace ProceduralShapes

variable {α σ : Type}

/- The shape that the statement places, if it is done at all. -/
def Statement.shape? (s : Statement α) : Option String :=
  match s.action with
  | .call _ => none
  | .place shape => if 0 < s.count then some shape else none

/- The shapes that a frame of the variant places. -/
def Variant.shapes (v : Variant α) : List String := v.statements.filterMap Statement.shape?

theorem mem_shapes_of_place {v : Variant α} {shape : String} {u : Transform α}
    (h : (.place shape, u) ∈ v.repetitions) : shape ∈ v.shapes := by
  obtain ⟨s, hs, hmem⟩ := List.mem_flatMap.1 h
  obtain ⟨hcount, heq⟩ := List.mem_replicate.1 hmem
  obtain ⟨haction, -⟩ := Prod.mk.inj heq
  refine List.mem_filterMap.2 ⟨s, hs, ?_⟩
  rw [Statement.shape?, ← haction]
  exact if_pos (Nat.pos_of_ne_zero hcount)

namespace Grammar

variable {g : Grammar α}

/- The shapes that an evaluation of the grammar may place. -/
def shapes (g : Grammar α) : List String := g.variants.toList.flatMap Variant.shapes

/- Every shape among the placements is one of the grammar. -/
def ShapesOf (g : Grammar α) (placed : Array (Placement α)) : Prop :=
  ∀ p ∈ placed, p.shape ∈ g.shapes

section Runs
variable [Scalar α] [RandomSource σ] {interval : Nat}

theorem place_of_body {xs : List (Action × Transform α)} {t : Transform α} {source : σ}
    {b : Body g σ} (h : g.body xs t source = .ok b) :
    ∀ p ∈ b.placed, ∃ u, (.place p.shape, u) ∈ xs := by
  induction xs generalizing t source b with
  | nil =>
    cases h
    simp
  | cons x rest ih =>
    obtain ⟨action, u⟩ := x
    have hlater : ∀ {b' : Body g σ} {t' : Transform α} {source' : σ},
        g.body rest t' source' = .ok b' →
        ∀ p ∈ b'.placed, ∃ u', (.place p.shape, u') ∈ (action, u) :: rest := by
      intro b' t' source' hb p hp
      obtain ⟨u', hu⟩ := ih hb p hp
      exact ⟨u', List.mem_cons_of_mem _ hu⟩
    cases action with
    | place shape =>
      rw [body] at h
      obtain ⟨b', hb, rfl⟩ := Fallible.map_eq_ok_iff.1 h
      intro p hp
      rcases List.mem_cons.1 hp with rfl | hp
      · exact ⟨u, List.mem_cons_self⟩
      · exact hlater hb p hp
    | call rule =>
      rw [body] at h
      split at h
      · cases h
      · obtain ⟨b', hb, rfl⟩ := Fallible.map_eq_ok_iff.1 h
        intro p hp
        exact hlater hb p hp

theorem shapesOf_leaves {f : Frame g} {below : Nat} {r next : Run α σ}
    {children : Array (Frame g)} (h : f.Leaves below r children next)
    (hr : g.ShapesOf r.placed) : g.ShapesOf next.placed := by
  cases h with
  | dropped => exact hr
  | ended => exact hr
  | restarted => exact hr
  | @expanded w _ _ hwork =>
    rw [all_eq_body] at hwork
    obtain ⟨b, hb, rfl⟩ := Fallible.map_eq_ok_iff.1 hwork
    intro p hp
    rcases Array.mem_append.1 hp with hp | hp
    · exact hr p hp
    · obtain ⟨u, hu⟩ := place_of_body hb p (List.mem_toArray.1 hp)
      exact List.mem_flatMap.2 ⟨f.rule, variant_mem f.variant, mem_shapes_of_place hu⟩

theorem shapesOf_step {s t : State g σ} (h : Step interval s t) (hs : g.ShapesOf s.run.placed) :
    g.ShapesOf t.run.placed := by
  obtain ⟨hstep⟩ := h
  refine shapesOf_leaves (leaves_of_step hstep) ?_
  rw [arrive_placed]
  exact hs

theorem shapesOf_completes {n : Nat} {s : State g σ} {o : Outcome α}
    (h : Completes interval n s o) (hs : g.ShapesOf s.run.placed) {e : Evaluation α}
    (he : o.result = .ok e) : g.ShapesOf e.placed := by
  induction h with
  | done r =>
    cases he
    exact hs
  | fault => cases he
  | step hstep _ ih => exact ih (shapesOf_step hstep hs) he

theorem shape_mem_of_evaluates {source : σ} {e : Evaluation α}
    (h : (g.evaluateFrom interval source).result = .ok e) :
    ∀ p ∈ e.placed, p.shape ∈ g.shapes := by
  obtain ⟨i, source', n, o, -, hrun, ho⟩ := exists_completes_of_ok h
  refine shapesOf_completes hrun ?_ ho
  intro p hp
  cases Array.not_mem_empty p hp

end Runs

end Grammar

end ProceduralShapes
