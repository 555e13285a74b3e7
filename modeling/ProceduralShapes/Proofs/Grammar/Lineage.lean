import Mathlib.Data.List.Forall2
import ProceduralShapes.Proofs.Fallible
import ProceduralShapes.Proofs.Grammar.Moment
import ProceduralShapes.Proofs.Random.Range

/-!
# Lineages

A frame comes out of the entry rule by way of other frames, each of which called the next or had it
for its successor (`Leads`). The account of a moment has such a way for every frame on the stack and
for every placement so far, and it changes with the moves of the evaluation (`Tells`). The transform
of a placement is the product of those on its way, multiplied from the left in the order in which
they came: in each frame those of the repetitions up to the one that the way leaves it with
(`placed_by_lineage`). What the frame did after that, and what its sisters did, is not among them.
-/

namespace ProceduralShapes.Grammar

variable {α σ : Type} {g : Grammar α}

/- A frame on a way. The way leaves it with the last of the first `done` repetitions of its
statements, or with its successor. -/
inductive Link (g : Grammar α)
  | ran (frame : Frame g) (done : Nat)
  | restarted (frame : Frame g)

/- The frames on a way from the first on. -/
abbrev Lineage (g : Grammar α) := List (Link g)

/- The transforms that the way picks up in the frame. -/
def Link.transforms : Link g → List (Transform α)
  | .ran f done => (f.rule.repetitions.take done).map Prod.snd
  | .restarted _ => []

/-! ### Ways to a frame and to a placement -/

section Ways
variable [Scalar α]

/- The product of all transforms on the way. -/
def Lineage.product (l : Lineage g) : Transform α :=
  (l.flatMap Link.transforms).foldl (· * ·) .identity

/- The transform of the frame after so many repetitions of its statements. -/
def Frame.after (f : Frame g) (done : Nat) : Transform α :=
  ((f.rule.repetitions.take done).map Prod.snd).foldl (· * ·) f.transform

theorem after_succ {f : Frame g} {n : Nat} {action : Action} {u : Transform α}
    (h : f.rule.repetitions[n]? = some (action, u)) : f.after (n + 1) = f.after n * u := by
  rw [Frame.after, List.take_add_one, h, List.map_append, List.foldl_append]
  rfl

/- The way comes from the entry rule to the frame: each frame on it is left for its successor at its
limit, and short of its limit for one that a repetition called. -/
inductive Leads (g : Grammar α) : Lineage g → Frame g → Prop
  | entry {i : g.Ref} (hi : i ∈ g.named entryRule) : Leads g [] ⟨i, 0, 0, .identity⟩
  | restarted {l : Lineage g} {f : Frame g} {rule : String} {i : g.Ref} (h : Leads g l f)
      (hlimit : f.limit ≤ f.depth) (hsome : f.rule.successor? = some rule)
      (hi : i ∈ g.named rule) :
      Leads g (l ++ [.restarted f]) ⟨i, 0, f.restarts + 1, f.transform⟩
  | called {l : Lineage g} {f : Frame g} {n : Nat} {rule : String} {u : Transform α} {i : g.Ref}
      (h : Leads g l f) (hlimit : f.depth < f.limit)
      (hcall : f.rule.repetitions[n]? = some (.call rule, u)) (hi : i ∈ g.named rule) :
      Leads g (l ++ [.ran f (n + 1)]) ⟨i, f.depth + 1, f.restarts, f.after (n + 1)⟩

/- The way comes to a frame, and there to the repetition that places this. -/
inductive Emits (g : Grammar α) : Lineage g → Placement α → Prop
  | intro {l : Lineage g} {f : Frame g} {n : Nat} {shape : String} {u : Transform α}
      (h : Leads g l f) (hlimit : f.depth < f.limit)
      (hplace : f.rule.repetitions[n]? = some (.place shape, u)) :
      Emits g (l ++ [.ran f (n + 1)]) ⟨shape, f.after (n + 1)⟩

theorem product_restarted (l : Lineage g) (f : Frame g) :
    Lineage.product (l ++ [.restarted f]) = l.product := by
  simp only [Lineage.product, List.flatMap_append, List.flatMap_singleton, Link.transforms,
    List.append_nil]

theorem product_ran {l : Lineage g} {f : Frame g} (h : f.transform = l.product) (n : Nat) :
    Lineage.product (l ++ [.ran f n]) = f.after n := by
  rw [Frame.after, h]
  simp only [Lineage.product, List.flatMap_append, List.flatMap_singleton, Link.transforms,
    List.foldl_append]

theorem Leads.transform_eq {l : Lineage g} {f : Frame g} (h : g.Leads l f) :
    f.transform = l.product := by
  induction h with
  | entry => rfl
  | restarted _ _ _ _ ih => exact ih.trans (product_restarted _ _).symm
  | called _ _ _ _ ih => exact (product_ran ih _).symm

theorem Emits.transform_eq {l : Lineage g} {p : Placement α} (h : g.Emits l p) :
    p.transform = l.product := by
  obtain ⟨hf, -, -⟩ := h
  exact (product_ran hf.transform_eq _).symm

end Ways

/-! ### Accounts of an evaluation -/

/- The ways of the frames on the stack and of the placements. Among the statements of a frame there
is its own way too, and how many of its repetitions are done. -/
inductive Account (g : Grammar α)
  | head (stack placed : List (Lineage g))
  | amid (stack : List (Lineage g)) (running : Lineage g) (done : Nat) (placed : List (Lineage g))

section Tells
variable [Scalar α] [RandomSource σ]

/- The evaluation comes to the moment with this account. The way of a frame is taken off the stack
with it; one that is called, or placed, goes on from there with one more link. -/
inductive Tells (interval : Nat) (source : σ) : Moment g σ → Account g → Prop
  | entry {i : g.Ref} {source' : σ} (hpick : g.pick entryRule source = .ok (i, source')) :
      Tells interval source (.head ⟨#[⟨i, 0, 0, .identity⟩], { source := source' }⟩)
        (.head [[]] [])
  | leave {waiting children : Array (Frame g)} {f : Frame g} {r next : Run α σ}
      {stack placed : List (Lineage g)} {l : Lineage g}
      (h : Tells interval source (.head ⟨waiting.push f, r⟩) (.head (stack ++ [l]) placed))
      (hstop : f.Stops waiting.size)
      (hstep : f.step waiting.size (r.arrive interval) = .ok (children, next)) :
      Tells interval source (.head ⟨waiting ++ children, next⟩)
        (.head (stack ++ List.replicate children.size (l ++ [.restarted f])) placed)
  | enter {waiting : Array (Frame g)} {f : Frame g} {r : Run α σ}
      {stack placed : List (Lineage g)} {l : Lineage g}
      (h : Tells interval source (.head ⟨waiting.push f, r⟩) (.head (stack ++ [l]) placed))
      (hgo : ¬f.Stops waiting.size) :
      Tells interval source (.amid (.start waiting f (r.arrive interval))) (.amid stack l 0 placed)
  | call {a : Midway g σ} {rule : String} {u : Transform α} {rest : List (Action × Transform α)}
      {w : Work g σ} {stack placed : List (Lineage g)} {l : Lineage g} {n : Nat}
      (h : Tells interval source (.amid a) (.amid stack l n placed))
      (htodo : a.todo = (.call rule, u) :: rest)
      (honce : a.work.once a.frame ⟨.call rule, u, 1⟩ = .ok w) :
      Tells interval source (.amid { a with todo := rest, work := w })
        (.amid (stack ++ [l ++ [.ran a.frame (n + 1)]]) l (n + 1) placed)
  | place {a : Midway g σ} {shape : String} {u : Transform α} {rest : List (Action × Transform α)}
      {w : Work g σ} {stack placed : List (Lineage g)} {l : Lineage g} {n : Nat}
      (h : Tells interval source (.amid a) (.amid stack l n placed))
      (htodo : a.todo = (.place shape, u) :: rest)
      (honce : a.work.once a.frame ⟨.place shape, u, 1⟩ = .ok w) :
      Tells interval source (.amid { a with todo := rest, work := w })
        (.amid stack l (n + 1) (placed ++ [l ++ [.ran a.frame (n + 1)]]))
  | finish {a : Midway g σ} {stack placed : List (Lineage g)} {l : Lineage g} {n : Nat}
      (h : Tells interval source (.amid a) (.amid stack l n placed)) (htodo : a.todo = []) :
      Tells interval source (.head a.finish) (.head stack placed)

variable {interval : Nat} {source : σ} {m : Moment g σ} {a : Account g}

/- Only moments of the evaluation are told. -/
theorem visits_of_tells (h : Tells interval source m a) : g.Visits interval source m := by
  induction h with
  | entry hpick => exact ⟨_, _, hpick, .refl⟩
  | leave _ hstop hstep ih => exact ih.move (.leave hstop hstep)
  | enter _ hgo ih => exact ih.move (.enter hgo)
  | call _ htodo honce ih => exact ih.move (.act htodo honce)
  | place _ htodo honce ih => exact ih.move (.act htodo honce)
  | finish _ htodo ih => exact ih.move (.finish htodo)

end Tells

/-! ### The ways of an account lead where it says -/

section Forall₂
variable {β γ : Type} {R : β → γ → Prop} {bs : List β} {cs : List γ} {b : β} {c : γ}

theorem forall₂_concat_iff :
    List.Forall₂ R (bs ++ [b]) (cs ++ [c]) ↔ List.Forall₂ R bs cs ∧ R b c := by
  rw [← List.forall₂_reverse_iff, List.reverse_append, List.reverse_append]
  simp only [List.reverse_singleton, List.singleton_append, List.forall₂_cons,
    List.forall₂_reverse_iff, and_comm]

theorem exists_concat_of_forall₂ (h : List.Forall₂ R bs (cs ++ [c])) :
    ∃ init last, bs = init ++ [last] := by
  rcases List.eq_nil_or_concat' bs with rfl | ⟨init, last, hbs⟩
  · have hlength := h.length_eq
    simp at hlength
  · exact ⟨init, last, hbs⟩

end Forall₂

theorem drop_of_drop_eq_cons {β : Type} {xs rest : List β} {x : β} {n : Nat}
    (h : xs.drop n = x :: rest) : xs[n]? = some x ∧ rest = xs.drop (n + 1) := by
  constructor
  · rw [← List.head?_drop, h]
    rfl
  · rw [← List.tail_drop, h]
    rfl

theorem mem_named_of_pick [RandomSource σ] {rule : String} {i : g.Ref} {source source' : σ}
    (h : g.pick rule source = .ok (i, source')) : i ∈ g.named rule := by
  simp only [pick_eq] at h
  split at h
  · split at h
    · cases h
    · split at h
      · rename_i hchosen
        cases h
        exact Weighted.mem_of_choose hchosen
      · cases h
  · cases h

section Fits
variable [Scalar α]

/- Each frame and each placement stands at the end of its way. -/
inductive Fits : Moment g σ → Account g → Prop
  | head {s : State g σ} {stack placed : List (Lineage g)}
      (hstack : List.Forall₂ g.Leads stack s.pending.toList)
      (hplaced : List.Forall₂ g.Emits placed s.run.placed.toList) :
      Fits (.head s) (.head stack placed)
  | amid {a : Midway g σ} {stack placed : List (Lineage g)} {l : Lineage g} {n : Nat}
      (hstack : List.Forall₂ g.Leads stack (a.waiting ++ a.work.children).toList)
      (hplaced : List.Forall₂ g.Emits placed a.work.placed.toList)
      (hframe : g.Leads l a.frame) (hlimit : a.frame.depth < a.frame.limit)
      (htodo : a.todo = a.frame.rule.repetitions.drop n)
      (hcurrent : a.work.transform = a.frame.after n) :
      Fits (.amid a) (.amid stack l n placed)

theorem fits_enter {waiting : Array (Frame g)} {f : Frame g} {r : Run α σ} {interval : Nat}
    {stack placed : List (Lineage g)} {l : Lineage g}
    (h : Fits (.head ⟨waiting.push f, r⟩) (.head (stack ++ [l]) placed))
    (hgo : ¬f.Stops waiting.size) :
    Fits (.amid (.start waiting f (r.arrive interval))) (.amid stack l 0 placed) := by
  cases h with
  | head hstack hplaced =>
    rw [Array.toList_push, forall₂_concat_iff] at hstack
    obtain ⟨hwaiting, hf⟩ := hstack
    refine .amid ?_ ?_ hf (kept_of_not_stops hgo).2 rfl rfl
    · simpa [Midway.start] using hwaiting
    · simpa [Midway.start] using hplaced

variable [RandomSource σ] {interval : Nat} {source : σ} {m : Moment g σ} {a : Account g}

theorem call_of_once {f : Frame g} {rule : String} {u : Transform α} {w w' : Work g σ}
    (h : w.once f ⟨.call rule, u, 1⟩ = .ok w') :
    ∃ i ∈ g.named rule, ∃ source,
      w' = ⟨source, w.transform * u,
        w.children.push ⟨i, f.depth + 1, f.restarts, w.transform * u⟩, w.placed⟩ := by
  unfold Work.once at h
  dsimp only at h
  split at h
  · rename_i i source hpick
    cases h
    exact ⟨i, mem_named_of_pick hpick, source, rfl⟩
  · cases h

theorem fits_leave {waiting children : Array (Frame g)} {f : Frame g} {r next : Run α σ}
    {stack placed : List (Lineage g)} {l : Lineage g}
    (h : Fits (.head ⟨waiting.push f, r⟩) (.head (stack ++ [l]) placed))
    (hstop : f.Stops waiting.size)
    (hstep : f.step waiting.size (r.arrive interval) = .ok (children, next)) :
    Fits (.head ⟨waiting ++ children, next⟩)
      (.head (stack ++ List.replicate children.size (l ++ [.restarted f])) placed) := by
  cases h with
  | head hstack hplaced =>
    rw [Array.toList_push, forall₂_concat_iff] at hstack
    obtain ⟨hwaiting, hf⟩ := hstack
    have hnext : next.placed = r.placed ∧
        List.Forall₂ g.Leads (List.replicate children.size (l ++ [.restarted f]))
          children.toList := by
      cases leaves_of_step hstep with
      | dropped => exact ⟨arrive_placed interval r, .nil⟩
      | ended => exact ⟨arrive_placed interval r, .nil⟩
      | restarted _ hlimit hsome hpick =>
        have hi := mem_named_of_pick hpick
        exact ⟨arrive_placed interval r, .cons (.restarted hf hlimit hsome hi) .nil⟩
      | expanded hkept hlimit => exact absurd hstop (not_or.2 ⟨hkept, Nat.not_le.2 hlimit⟩)
    obtain ⟨hsame, hchildren⟩ := hnext
    refine .head ?_ ?_
    · rw [Array.toList_append]
      exact List.rel_append hwaiting hchildren
    · rw [hsame]
      exact hplaced

theorem fits_call {a : Midway g σ} {rule : String} {u : Transform α}
    {rest : List (Action × Transform α)} {w : Work g σ} {stack placed : List (Lineage g)}
    {l : Lineage g} {n : Nat} (h : Fits (.amid a) (.amid stack l n placed))
    (htodo : a.todo = (.call rule, u) :: rest)
    (honce : a.work.once a.frame ⟨.call rule, u, 1⟩ = .ok w) :
    Fits (.amid { a with todo := rest, work := w })
      (.amid (stack ++ [l ++ [.ran a.frame (n + 1)]]) l (n + 1) placed) := by
  cases h with
  | amid hstack hplaced hframe hlimit hdrop hcurrent =>
    -- With `n` repetitions done, the one that calls is the next of the variant.
    obtain ⟨hcall, hrest⟩ := drop_of_drop_eq_cons (hdrop.symm.trans htodo)
    obtain ⟨i, hi, source, rfl⟩ := call_of_once honce
    have hnext : a.work.transform * u = a.frame.after (n + 1) := by
      rw [hcurrent, after_succ hcall]
    refine .amid ?_ hplaced hframe hlimit hrest hnext
    dsimp only
    rw [← Array.push_append, Array.toList_push, forall₂_concat_iff, hnext]
    exact ⟨hstack, .called hframe hlimit hcall hi⟩

theorem fits_place {a : Midway g σ} {shape : String} {u : Transform α}
    {rest : List (Action × Transform α)} {w : Work g σ} {stack placed : List (Lineage g)}
    {l : Lineage g} {n : Nat} (h : Fits (.amid a) (.amid stack l n placed))
    (htodo : a.todo = (.place shape, u) :: rest)
    (honce : a.work.once a.frame ⟨.place shape, u, 1⟩ = .ok w) :
    Fits (.amid { a with todo := rest, work := w })
      (.amid stack l (n + 1) (placed ++ [l ++ [.ran a.frame (n + 1)]])) := by
  cases h with
  | amid hstack hplaced hframe hlimit hdrop hcurrent =>
    obtain ⟨hplace, hrest⟩ := drop_of_drop_eq_cons (hdrop.symm.trans htodo)
    have hnext : a.work.transform * u = a.frame.after (n + 1) := by
      rw [hcurrent, after_succ hplace]
    cases honce
    refine .amid hstack ?_ hframe hlimit hrest hnext
    dsimp only
    rw [Array.toList_push, forall₂_concat_iff, hnext]
    exact ⟨hplaced, .intro hframe hlimit hplace⟩

theorem fits_of_tells (h : Tells interval source m a) : Fits m a := by
  induction h with
  | entry hpick => exact .head (.cons (.entry (mem_named_of_pick hpick)) .nil) .nil
  | leave _ hstop hstep ih => exact fits_leave ih hstop hstep
  | enter _ hgo ih => exact fits_enter ih hgo
  | call _ htodo honce ih => exact fits_call ih htodo honce
  | place _ htodo honce ih => exact fits_place ih htodo honce
  | finish _ _ ih =>
    cases ih with
    | amid hstack hplaced => exact .head hstack hplaced

/-! ### Every moment has an account -/

theorem exists_tells_of_moves {m' : Moment g σ} (h : Tells interval source m a)
    (hmove : Moves interval m m') : ∃ a', Tells interval source m' a' := by
  -- Because the account fits, it has a way for the frame that is taken off.
  have hfits := fits_of_tells h
  cases hmove with
  | leave hstop hstep =>
    cases hfits with
    | head hstack _ =>
      rw [Array.toList_push] at hstack
      obtain ⟨stack, l, rfl⟩ := exists_concat_of_forall₂ hstack
      exact ⟨_, .leave h hstop hstep⟩
  | enter hgo =>
    cases hfits with
    | head hstack _ =>
      rw [Array.toList_push] at hstack
      obtain ⟨stack, l, rfl⟩ := exists_concat_of_forall₂ hstack
      exact ⟨_, .enter h hgo⟩
  | @act _ action u rest w htodo honce =>
    cases hfits with
    | amid =>
      cases action with
      | call rule => exact ⟨_, .call h htodo honce⟩
      | place shape => exact ⟨_, .place h htodo honce⟩
  | finish htodo =>
    cases hfits with
    | amid => exact ⟨_, .finish h htodo⟩

theorem exists_tells (h : g.Visits interval source m) : ∃ a, Tells interval source m a := by
  obtain ⟨i, source', hpick, hreach⟩ := h
  induction hreach with
  | refl => exact ⟨_, .entry hpick⟩
  | tail _ hmove ih =>
    obtain ⟨a, ha⟩ := ih
    exact exists_tells_of_moves ha hmove

/- The evaluation ends with these ways of its placements. -/
def Ways (g : Grammar α) (interval : Nat) (source : σ) (e : Evaluation α)
    (ways : List (Lineage g)) : Prop :=
  ∃ r, Tells interval source (.head ⟨(#[] : Array (Frame g)), r⟩) (.head [] ways) ∧
    e = ⟨r.placed, r.stats⟩

/- All that an evaluation does can be told, and the transform of each placement is the product of
those on its way from the entry rule. So is that of each frame on the stack. -/
theorem placed_by_lineage (g : Grammar α) (interval : Nat) (source : σ) :
    (∀ m : Moment g σ, g.Visits interval source m ↔ ∃ a, Tells interval source m a) ∧
    (∀ (s : State g σ) stack placed, Tells interval source (.head s) (.head stack placed) →
      List.Forall₂ (fun l f => g.Leads l f ∧
        f.transform = (l.flatMap Link.transforms).foldl (· * ·) .identity)
        stack s.pending.toList) ∧
    ∀ e, (g.evaluateFrom interval source).result = .ok e →
      (∃ ways, g.Ways interval source e ways) ∧
      ∀ ways, g.Ways interval source e ways →
        List.Forall₂ (fun l p => g.Emits l p ∧
          p.transform = (l.flatMap Link.transforms).foldl (· * ·) .identity)
          ways e.placed.toList := by
  refine ⟨?_, ?_, ?_⟩
  · intro m
    exact ⟨exists_tells, fun ⟨a, ha⟩ => visits_of_tells ha⟩
  · intro s stack placed h
    cases fits_of_tells h with
    | head hstack _ => exact hstack.imp fun l f hl => ⟨hl, hl.transform_eq⟩
  · intro e he
    constructor
    · obtain ⟨r, hend, heq⟩ := exists_end_of_ok he
      obtain ⟨a, ha⟩ := exists_tells hend
      cases fits_of_tells ha with
      | head hstack _ =>
        cases hstack
        exact ⟨_, r, ha, heq⟩
    · rintro ways ⟨r, hr, rfl⟩
      cases fits_of_tells hr with
      | head _ hplaced => exact hplaced.imp fun l p hl => ⟨hl, hl.transform_eq⟩

end Fits

/- Its entry rule calls itself twice and places a stem. The frames called are at their limit, and
their successor places two leaves. -/
def sprig : Grammar Float :=
  [{ name := entryRule, maxDepth? := some 1, successor? := some "bud",
     statements := [⟨.call entryRule, .translate ⟨0, 1, 0⟩, 2⟩, ⟨.place "stem", .identity, 1⟩] },
   { name := "bud", statements := [⟨.place "leaf", .translate ⟨1, 0, 0⟩, 2⟩] }].foldl add
    { maxDepth := 3, maxDepth_pos := Nat.succ_pos 2 }

/- Its five placements, the leaves by way of two frames and their successor. -/
theorem sprig_placed_by_lineage : ∃ e ways,
    (sprig.evaluateFrom 0 (ChaCha.Generator.ofSeed 7)).result = .ok e ∧
    e.placed.toList.map Placement.shape = ["stem", "leaf", "leaf", "leaf", "leaf"] ∧
    sprig.Ways 0 (ChaCha.Generator.ofSeed 7) e ways ∧
    List.Forall₂ (fun l p => sprig.Emits l p ∧
      p.transform = (l.flatMap Link.transforms).foldl (· * ·) .identity) ways e.placed.toList := by
  have hshapes : ((sprig.evaluateFrom 0 (ChaCha.Generator.ofSeed 7)).result.map
      fun e => e.placed.toList.map Placement.shape) =
        .ok ["stem", "leaf", "leaf", "leaf", "leaf"] := by decide +kernel
  obtain ⟨-, -, hresult⟩ := placed_by_lineage sprig 0 (ChaCha.Generator.ofSeed 7)
  obtain ⟨e, he, hplaced⟩ := Fallible.map_eq_ok_iff.1 hshapes
  obtain ⟨⟨ways, hways⟩, hall⟩ := hresult e he
  exact ⟨e, ways, he, hplaced, hways, hall ways hways⟩

end ProceduralShapes.Grammar
