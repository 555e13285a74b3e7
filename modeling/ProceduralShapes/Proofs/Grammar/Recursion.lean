import ProceduralShapes.Proofs.Fallible
import ProceduralShapes.Proofs.Grammar.Machine

/-!
# Evaluation by recursion

The direct reading of a grammar: a frame is evaluated together with all that it calls before
anything else goes on, the calls of a frame from the last to the first, each with as many
frames below it as it has sisters before it on top of those below its caller (`derive`). No
stack is kept. The loop over the pending frames comes to the same result.
-/

namespace ProceduralShapes

variable {α σ : Type}

/- The actions of a variant with their transforms, each written out as often as it is done. -/
def Variant.repetitions (v : Variant α) : List (Action × Transform α) :=
  v.statements.flatMap fun s => List.replicate s.count (s.action, s.transform)

/- A statement counts as often as it is done. -/
theorem total_repetitions (f : Action × Transform α → Nat) (v : Variant α) :
    total f v.repetitions = total (fun s => s.count * f (s.action, s.transform)) v.statements := by
  rw [Variant.repetitions, total_flatMap]
  refine congrArg (fun h => total h v.statements) (funext fun s => ?_)
  rw [total_eq_length_mul fun x hx => congrArg f (List.eq_of_mem_replicate hx),
    List.length_replicate]

namespace Grammar

variable {g : Grammar α}

/-! ### The recursion -/

/- A variant picked for a call, and the transform where it was called. -/
structure Callee (g : Grammar α) where
  variant : g.Ref
  transform : Transform α

/- What the actions of one frame come to: the calls and the placements in order, and the
transform and the source behind the last of them. -/
structure Body (g : Grammar α) (σ : Type) where
  callees : List (Callee g)
  placed : List (Placement α)
  transform : Transform α
  source : σ

def Stats.join (s s' : Stats) : Stats :=
  { processed := s.processed + s'.processed
    dropped := s.dropped + s'.dropped
    exhausted := s.exhausted + s'.exhausted
    peak := max s.peak s'.peak }

/- What evaluating frames produces: placements in order, and counts. -/
structure Yield (α : Type) where
  placed : List (Placement α) := []
  stats : Stats := {}

namespace Yield

instance : Append (Yield α) := ⟨fun y z => ⟨y.placed ++ z.placed, y.stats.join z.stats⟩⟩

def dropped : Yield α := { stats := { processed := 1, dropped := 1 } }

def exhausted : Yield α := { stats := { processed := 1, exhausted := 1 } }

def expanded (placed : List (Placement α)) (peak : Nat) : Yield α :=
  { placed, stats := { processed := 1, peak } }

end Yield

section Recursion
variable [Scalar α] [RandomSource σ]

/- Does the actions in order. The transform goes on from each to the next, and a variant is
picked for every call. -/
def body (g : Grammar α) : List (Action × Transform α) → Transform α → σ →
    Except PickError (Body g σ)
  | [], t, source => .ok ⟨[], [], t, source⟩
  | (.place shape, u) :: rest, t, source =>
    (body g rest (t * u) source).map fun b => { b with placed := ⟨shape, t * u⟩ :: b.placed }
  | (.call rule, u) :: rest, t, source =>
    match g.pick rule source with
    | .error e => .error e
    | .ok (i, source) =>
      (body g rest (t * u) source).map fun b => { b with callees := ⟨i, t * u⟩ :: b.callees }

/- Evaluates the callees from the last to the first. The first has `below` frames below it, and
each other one more than the callee before it. -/
def lastFirst (eval : Callee g → Nat → σ → Except PickError (Yield α × σ)) :
    List (Callee g) → Nat → σ → Except PickError (Yield α × σ)
  | [], _, source => .ok ({}, source)
  | c :: rest, below, source =>
    match lastFirst eval rest (below + 1) source with
    | .error e => .error e
    | .ok (later, source) =>
      match eval c below source with
      | .error e => .error e
      | .ok (y, source) => .ok (later ++ y, source)

/- Evaluates a variant at a depth, after some restarts, under a transform, while `below` frames
wait below it. -/
def derive (g : Grammar α) (i : g.Ref) (depth restarts : Nat) (t : Transform α) (below : Nat)
    (source : σ) : Except PickError (Yield α × σ) :=
  if _hdrop : g.maxDepth ≤ below ∨ g.maxDepth ≤ restarts then .ok (.dropped, source)
  else if _hlimit : (g.variant i).maxDepth?.getD g.maxDepth ≤ depth then
    match (g.variant i).successor? with
    | none => .ok (.exhausted, source)
    | some rule =>
      match g.pick rule source with
      | .error e => .error e
      | .ok (j, source) =>
        (derive g j 0 (restarts + 1) t below source).map fun (y, source) =>
          (.exhausted ++ y, source)
  else
    match g.body (g.variant i).repetitions t source with
    | .error e => .error e
    | .ok b =>
      (lastFirst (fun c below source =>
          derive g c.variant (depth + 1) restarts c.transform below source)
        b.callees below b.source).map fun (y, source) =>
          (.expanded b.placed (below + b.callees.length) ++ y, source)
termination_by (g.maxDepth - restarts, g.depthBound + 1 - depth)
decreasing_by
  · have hrestarts : g.maxDepth - (restarts + 1) < g.maxDepth - restarts := by omega
    exact Prod.Lex.left _ _ hrestarts
  · have hbound : (g.variant i).maxDepth?.getD g.maxDepth ≤ g.depthBound :=
      limit_le_depthBound ⟨i, depth, restarts, t⟩
    have hdepth : g.depthBound + 1 - (depth + 1) < g.depthBound + 1 - depth := by omega
    exact Prod.Lex.right _ hdepth

/- Evaluates the grammar from a variant of its entry rule. -/
def deriveEntry (g : Grammar α) (source : σ) : Except PickError (Evaluation α) :=
  match g.pick entryRule source with
  | .error e => .error e
  | .ok (i, source) =>
    (derive g i 0 0 .identity 0 source).map fun (y, _) => ⟨y.placed.toArray, y.stats⟩

/-! ### The actions of a frame -/

/- Does the actions in order, as the statements of the frame `f`. -/
def Work.each (f : Frame g) : List (Action × Transform α) → Work g σ →
    Except PickError (Work g σ)
  | [], w => .ok w
  | (action, u) :: rest, w =>
    match w.once f ⟨action, u, 1⟩ with
    | .ok next => each f rest next
    | .error e => .error e

theorem each_append (f : Frame g) (xs ys : List (Action × Transform α)) (w : Work g σ) :
    w.each f (xs ++ ys) =
      match w.each f xs with
      | .ok next => next.each f ys
      | .error e => .error e := by
  induction xs generalizing w with
  | nil => rfl
  | cons x xs ih =>
    obtain ⟨action, u⟩ := x
    simp only [List.cons_append, Work.each]
    cases w.once f ⟨action, u, 1⟩ with
    | ok next => exact ih next
    | error e => rfl

theorem times_eq_each (f : Frame g) (s : Statement α) (n : Nat) (w : Work g σ) :
    Work.times f s n w = w.each f (List.replicate n (s.action, s.transform)) := by
  induction n generalizing w with
  | zero => rfl
  | succ n ih =>
    have honce : w.once f s = w.once f ⟨s.action, s.transform, 1⟩ := rfl
    simp only [Work.times, List.replicate_succ, Work.each]
    rw [honce]
    cases w.once f ⟨s.action, s.transform, 1⟩ with
    | ok next => exact ih next
    | error e => rfl

theorem all_eq_each (f : Frame g) (ss : List (Statement α)) (w : Work g σ) :
    Work.all f ss w =
      w.each f (ss.flatMap fun s => List.replicate s.count (s.action, s.transform)) := by
  induction ss generalizing w with
  | nil => rfl
  | cons s ss ih =>
    rw [List.flatMap_cons, each_append, ← times_eq_each, Work.all]
    cases Work.times f s s.count w with
    | ok next => exact ih next
    | error e => rfl

/- The frame that a callee waits in. -/
def Callee.frame (depth restarts : Nat) (c : Callee g) : Frame g :=
  ⟨c.variant, depth, restarts, c.transform⟩

theorem each_eq_body (f : Frame g) (xs : List (Action × Transform α)) (source : σ)
    (t : Transform α) (children : Array (Frame g)) (placed : Array (Placement α)) :
    Work.each f xs ⟨source, t, children, placed⟩ =
      (g.body xs t source).map fun b =>
        ⟨b.source, b.transform,
          children ++ (b.callees.map (Callee.frame (f.depth + 1) f.restarts)).toArray,
          placed ++ b.placed.toArray⟩ := by
  induction xs generalizing source t children placed with
  | nil => simp [Work.each, body, Except.map]
  | cons x xs ih =>
    obtain ⟨action, u⟩ := x
    cases action with
    | place shape =>
      simp only [Work.each, Work.once, body]
      rw [ih]
      cases g.body xs (t * u) source with
      | ok b => simp [Except.map]
      | error e => rfl
    | call rule =>
      simp only [Work.each, Work.once, body]
      cases g.pick rule source with
      | error e => rfl
      | ok picked =>
        obtain ⟨i, source⟩ := picked
        simp only
        rw [ih]
        cases g.body xs (t * u) source with
        | ok b => simp [Except.map, Callee.frame]
        | error e => rfl

theorem all_eq_body (f : Frame g) (source : σ) (t : Transform α) (placed : Array (Placement α)) :
    Work.all f f.rule.statements ⟨source, t, #[], placed⟩ =
      (g.body f.rule.repetitions t source).map fun b =>
        ⟨b.source, b.transform, (b.callees.map (Callee.frame (f.depth + 1) f.restarts)).toArray,
          placed ++ b.placed.toArray⟩ := by
  rw [all_eq_each, each_eq_body]
  simp only [Array.empty_append]
  rfl

end Recursion

/-! ### The loop follows the recursion -/

theorem Stats.join_assoc (s s' s'' : Stats) : (s.join s').join s'' = s.join (s'.join s'') := by
  simp only [Stats.join, Nat.add_assoc, Nat.max_assoc]

/- The run `r'` has come out of `r` by producing `y`, with the source now at `source`. -/
structure Run.Gained (r : Run α σ) (y : Yield α) (source : σ) (r' : Run α σ) : Prop where
  source_eq : r'.source = source
  placed_eq : r'.placed = r.placed ++ y.placed.toArray
  stats_eq : r'.stats = r.stats.join y.stats

theorem Run.Gained.refl (r : Run α σ) : r.Gained {} r.source r :=
  ⟨rfl, by simp, by simp [Stats.join]⟩

theorem Run.Gained.trans {r r' r'' : Run α σ} {y z : Yield α} {source source' : σ}
    (h : r.Gained y source r') (h' : r'.Gained z source' r'') : r.Gained (y ++ z) source' r'' := by
  refine ⟨h'.source_eq, ?_, ?_⟩
  · have happend : (y ++ z).placed = y.placed ++ z.placed := rfl
    rw [h'.placed_eq, h.placed_eq, happend]
    simp
  · rw [h'.stats_eq, h.stats_eq, Stats.join_assoc]
    rfl

section Agreement
variable [Scalar α] [RandomSource σ]

/- The loop deals with the pending frames above the waiting ones as the recursion says: it goes on
with the waiting frames when all of the yield is produced, or ends with the same error. -/
def Agrees (interval : Nat) (pending waiting : Array (Frame g)) (r : Run α σ) :
    Except PickError (Yield α × σ) → Prop
  | .ok (y, source) =>
    ∃ r', r.Gained y source r' ∧ loop interval pending r = loop interval waiting r'
  | .error e => (loop interval pending r).result = .error e

theorem lastFirst_agrees (interval depth restarts : Nat)
    (eval : Callee g → Nat → σ → Except PickError (Yield α × σ))
    (heval : ∀ c (waiting : Array (Frame g)) (r : Run α σ),
      Agrees interval (waiting.push (c.frame depth restarts)) waiting r
        (eval c waiting.size r.source))
    (cs : List (Callee g)) (waiting : Array (Frame g)) (r : Run α σ) :
    Agrees interval (waiting ++ (cs.map (Callee.frame depth restarts)).toArray) waiting r
      (lastFirst eval cs waiting.size r.source) := by
  induction cs generalizing waiting r with
  | nil => exact ⟨r, .refl r, by simp⟩
  | cons c rest ih =>
    have hrest := ih (waiting.push (c.frame depth restarts)) r
    have hsplit : waiting ++ ((c :: rest).map (Callee.frame depth restarts)).toArray =
        waiting.push (c.frame depth restarts) ++
          (rest.map (Callee.frame depth restarts)).toArray := by simp
    rw [hsplit, lastFirst]
    rw [Array.size_push] at hrest
    cases hlater : lastFirst eval rest (waiting.size + 1) r.source with
    | error e =>
      rw [hlater] at hrest
      exact hrest
    | ok later =>
      obtain ⟨y, source⟩ := later
      rw [hlater] at hrest
      obtain ⟨r₁, hgain, hloop⟩ := hrest
      have hc := heval c waiting r₁
      rw [hgain.source_eq] at hc
      dsimp only
      cases hone : eval c waiting.size source with
      | error e =>
        rw [hone] at hc
        rw [Agrees, hloop]
        exact hc
      | ok one =>
        obtain ⟨z, source'⟩ := one
        rw [hone] at hc
        obtain ⟨r₂, hgain', hloop'⟩ := hc
        exact ⟨r₂, hgain.trans hgain', hloop.trans hloop'⟩

theorem loop_of_leaves {interval : Nat} {waiting children : Array (Frame g)} {f : Frame g}
    {r next : Run α σ} (h : f.Leaves waiting.size (r.arrive interval) children next) :
    loop interval (waiting.push f) r = loop interval (waiting ++ children) next := by
  rw [loop_push, step_of_leaves h]

theorem agrees_of_blocked {interval : Nat} {waiting : Array (Frame g)} {f : Frame g} {r : Run α σ}
    {e : PickError} (h : f.Blocked waiting.size (r.arrive interval) e) :
    Agrees interval (waiting.push f) waiting r (.error e) := by
  rw [Agrees, loop_push, step_of_blocked h]

/- A frame that leaves nothing behind has produced all of the yield. -/
theorem agrees_of_leaves_nothing {interval : Nat} {waiting : Array (Frame g)} {f : Frame g}
    {r next : Run α σ} {y : Yield α} {source : σ}
    (h : f.Leaves waiting.size (r.arrive interval) #[] next) (hgain : r.Gained y source next) :
    Agrees interval (waiting.push f) waiting r (.ok (y, source)) := by
  refine ⟨next, hgain, ?_⟩
  rw [loop_of_leaves h, Array.append_empty]

/- A frame that leaves frames behind has produced `y`, and they produce the rest. -/
theorem agrees_of_leaves {interval : Nat} {waiting children : Array (Frame g)} {f : Frame g}
    {r next : Run α σ} {y : Yield α} {res : Except PickError (Yield α × σ)} {source : σ}
    (h : f.Leaves waiting.size (r.arrive interval) children next) (hgain : r.Gained y source next)
    (hrest : Agrees interval (waiting ++ children) waiting next res) :
    Agrees interval (waiting.push f) waiting r (res.map fun (z, source) => (y ++ z, source)) := by
  have hloop := loop_of_leaves h
  cases res with
  | error e =>
    rw [Except.map, Agrees, hloop]
    exact hrest
  | ok rest =>
    obtain ⟨r', hgain', hloop'⟩ := hrest
    exact ⟨r', hgain.trans hgain', hloop.trans hloop'⟩

theorem derive_agrees (interval : Nat) (i : g.Ref) (depth restarts : Nat) (t : Transform α)
    (below : Nat) (source : σ) (waiting : Array (Frame g)) (r : Run α σ)
    (hbelow : waiting.size = below) (hsource : r.source = source) :
    Agrees interval (waiting.push ⟨i, depth, restarts, t⟩) waiting r
      (g.derive i depth restarts t below source) := by
  fun_induction derive g i depth restarts t below source generalizing waiting r with
  | case1 i depth restarts t below source hdrop =>
    subst hbelow hsource
    refine agrees_of_leaves_nothing (.dropped hdrop) ⟨?_, ?_, ?_⟩
    · simp [Run.drop]
    · simp [Run.drop, Yield.dropped]
    · simp [Run.drop, Yield.dropped, Stats.join]
  | case2 i depth restarts t below source hdrop hlimit hnone =>
    subst hbelow hsource
    refine agrees_of_leaves_nothing (.ended hdrop hlimit hnone) ⟨?_, ?_, ?_⟩
    · simp [Run.exhaust]
    · simp [Run.exhaust, Yield.exhausted]
    · simp [Run.exhaust, Yield.exhausted, Stats.join]
  | case3 i depth restarts t below source hdrop hlimit rule hsome e hpick =>
    subst hbelow hsource
    rw [← arrive_source interval r] at hpick
    exact agrees_of_blocked (.successor hdrop hlimit hsome hpick)
  | case4 i depth restarts t below source hdrop hlimit rule hsome j source' hpick ih =>
    subst hbelow hsource
    rw [← arrive_source interval r] at hpick
    refine agrees_of_leaves (.restarted hdrop hlimit hsome hpick) ⟨rfl, ?_, ?_⟩ (ih waiting _ rfl rfl)
    · simp [Run.exhaust, Yield.exhausted]
    · simp [Run.exhaust, Yield.exhausted, Stats.join]
  | case5 i depth restarts t below source hdrop hlimit e hbody =>
    subst hbelow hsource
    let f : Frame g := ⟨i, depth, restarts, t⟩
    have hwork : Work.all f f.rule.statements
        ⟨(r.arrive interval).source, t, #[], (r.arrive interval).placed⟩ = .error e := by
      rw [all_eq_body, arrive_source]
      exact congrArg (Except.map _) hbody
    exact agrees_of_blocked (f := f) (.call hdrop (Nat.not_le.1 hlimit) hwork)
  | case6 i depth restarts t below source hdrop hlimit b hbody ih =>
    subst hbelow hsource
    let f : Frame g := ⟨i, depth, restarts, t⟩
    have hwork : Work.all f f.rule.statements
        ⟨(r.arrive interval).source, t, #[], (r.arrive interval).placed⟩ =
        .ok ⟨b.source, b.transform, (b.callees.map (Callee.frame (depth + 1) restarts)).toArray,
          r.placed ++ b.placed.toArray⟩ := by
      rw [all_eq_body, arrive_source, arrive_placed]
      exact congrArg (Except.map _) hbody
    refine agrees_of_leaves (f := f) (.expanded hdrop (Nat.not_le.1 hlimit) hwork) ⟨rfl, rfl, ?_⟩ ?_
    · simp [Yield.expanded, Stats.join]
    · exact lastFirst_agrees interval (depth + 1) restarts _
        (fun c waiting r => ih c waiting.size r.source waiting r rfl rfl) b.callees waiting _

theorem result_eq_derive (g : Grammar α) (interval : Nat) (source : σ) :
    (g.evaluateFrom interval source).result = g.deriveEntry source := by
  rw [evaluateFrom, deriveEntry]
  cases g.pick entryRule source with
  | error e => rfl
  | ok picked =>
    obtain ⟨i, source⟩ := picked
    have h := derive_agrees interval i 0 0 .identity 0 source #[] { source } rfl rfl
    dsimp only
    cases hderive : g.derive i 0 0 .identity 0 source with
    | error e =>
      rw [hderive] at h
      exact h
    | ok produced =>
      obtain ⟨y, source'⟩ := produced
      rw [hderive] at h
      obtain ⟨r', hgain, hloop⟩ := h
      have hstart : loop interval #[(⟨i, 0, 0, .identity⟩ : Frame g)] ({ source } : Run α σ) =
          loop interval #[] r' := hloop
      rw [hstart, loop_empty, hgain.placed_eq, hgain.stats_eq]
      simp [Except.map, Stats.join]

/-! ### A frame that waits -/

/- The run from the first state to the second deals only with frames above place `i`. -/
inductive Clears (interval i : Nat) : State g σ → State g σ → Prop
  | refl (s : State g σ) : Clears interval i s s
  | step {s t u : State g σ} (habove : i + 1 < s.pending.size) (h : Step interval s t)
      (hrest : Clears interval i t u) : Clears interval i s u

theorem step_frame {interval : Nat} {s t : State g σ} (h : Step interval s t) :
    s.pending.size ≤ t.pending.size + 1 ∧
      ∀ j, j + 1 < s.pending.size → t.pending[j]? = s.pending[j]? := by
  obtain ⟨hstep⟩ := h
  rename_i waiting f r next children
  refine ⟨by simp, ?_⟩
  intro j hj
  have hlt : j < waiting.size := by simpa using hj
  simp only
  rw [Array.getElem?_append_left hlt, Array.getElem?_push_lt hlt, Array.getElem?_eq_getElem hlt]

theorem clears_frame {interval i : Nat} {s t : State g σ} (h : Clears interval i s t)
    (hi : i < s.pending.size) : i < t.pending.size ∧ t.pending[i]? = s.pending[i]? := by
  induction h with
  | refl s => exact ⟨hi, rfl⟩
  | step habove hstep _ ih =>
    obtain ⟨hsize, hkept⟩ := step_frame hstep
    obtain ⟨hlt, heq⟩ := ih (by omega)
    exact ⟨hlt, heq.trans (hkept i habove)⟩

/- The frames above place `i` are all dealt with, or one of them ends the run. -/
theorem exists_clears {interval i : Nat} {s : State g σ} (hi : i < s.pending.size) :
    (∃ t, Clears interval i s t ∧ t.pending.size = i + 1) ∨
      ∃ e, (s.outcome interval).result = .error e := by
  obtain ⟨n, hrun⟩ := exists_completes interval s
  generalize s.outcome interval = o at hrun ⊢
  induction hrun with
  | done r => exact absurd hi (Nat.not_lt_zero i)
  | fault hfail => exact .inr ⟨_, rfl⟩
  | @step n s t o hstep hrest ih =>
    by_cases habove : i + 1 < s.pending.size
    · have hsize := (step_frame hstep).1
      rcases ih (by omega) with ⟨u, hclears, hu⟩ | herror
      · exact .inl ⟨u, .step habove hstep hclears, hu⟩
      · exact .inr herror
    · exact .inl ⟨s, .refl s, by omega⟩

theorem leaves_dropped {f : Frame g} {below : Nat} {r next : Run α σ} {children : Array (Frame g)}
    (h : f.Leaves below r children next) :
    next.stats.dropped = r.stats.dropped + 1 ↔ f.Dropped below := by
  cases h with
  | dropped hdrop => simp [Run.drop, hdrop]
  | ended hkept => simp [Run.exhaust, hkept]
  | restarted hkept => simp [Run.exhaust, hkept]
  | expanded hkept => simp [hkept]

/- The frame on top is dropped exactly if the frames below it or its restarts are too many. -/
theorem exists_drop_iff {interval i : Nat} {s : State g σ} {f : Frame g}
    (hsize : s.pending.size = i + 1) (htop : s.pending[i]? = some f) :
    (∃ t, Step interval s t ∧ t.run.stats.dropped = s.run.stats.dropped + 1) ↔
      g.maxDepth ≤ i ∨ g.maxDepth ≤ f.restarts := by
  obtain ⟨pending, r⟩ := s
  obtain ⟨waiting, f', rfl⟩ := Array.exists_push_of_size_eq_add_one hsize
  have hi : waiting.size = i := by simpa using hsize
  subst hi
  have hf : f' = f := by simpa using htop
  subst hf
  constructor
  · rintro ⟨t, hstep, ht⟩
    generalize hs : (State.mk (waiting.push f') r : State g σ) = s at hstep
    obtain ⟨hleft⟩ := hstep
    simp only [State.mk.injEq, Array.push_eq_push] at hs
    obtain ⟨⟨rfl, rfl⟩, rfl⟩ := hs
    refine (leaves_dropped (leaves_of_step hleft)).1 ?_
    simpa using ht
  · intro hdrop
    refine ⟨_, .intro (step_of_dropped hdrop _), ?_⟩
    simp [Run.drop]

/- The loop over the pending frames comes to the result of the recursion. A frame pending at place
`i` is met again with `i` frames below it, whatever is dealt with in between, and then decides by
that and its restarts alone whether it is dropped. -/
theorem loop_eq_recursion (g : Grammar α) (interval : Nat) :
    (∀ source : σ, (g.evaluateFrom interval source).result = g.deriveEntry source) ∧
    ∀ (s : State g σ) (i : Nat) (f : Frame g), s.pending[i]? = some f →
      ((∃ t, Clears interval i s t ∧ t.pending.size = i + 1) ∨
        ∃ e, (s.outcome interval).result = .error e) ∧
      ∀ t, Clears interval i s t → t.pending.size = i + 1 →
        t.pending[i]? = some f ∧
        ((∃ u, Step interval t u ∧ u.run.stats.dropped = t.run.stats.dropped + 1) ↔
          g.maxDepth ≤ i ∨ g.maxDepth ≤ f.restarts) := by
  refine ⟨result_eq_derive g interval, ?_⟩
  intro s i f hf
  have hi : i < s.pending.size := (Array.getElem?_eq_some_iff.1 hf).1
  refine ⟨exists_clears hi, ?_⟩
  intro t hclears hsize
  have htop : t.pending[i]? = some f := (clears_frame hclears hi).2.trans hf
  exact ⟨htop, exists_drop_iff hsize htop⟩

end Agreement

/- Three frames of the relay pending, the one in the middle begun anew as often as it can be. -/
def relayed : State relay ChaCha.Generator :=
  ⟨#[⟨⟨0, Nat.one_pos⟩, 0, 0, .identity⟩, ⟨⟨0, Nat.one_pos⟩, 0, 2, .identity⟩,
    ⟨⟨0, Nat.one_pos⟩, 1, 1, .identity⟩], { source := ChaCha.Generator.ofSeed 7 }⟩

/- The recursion drops four of the relay's twelve frames, the first for its place and the others for
their restarts. The frame in the middle of three is dropped for its restarts, once the one above
it is. -/
theorem relay_frames_dropped :
    (∃ e, relay.deriveEntry (ChaCha.Generator.ofSeed 7) = .ok e ∧
      e.stats = { processed := 12, dropped := 4, exhausted := 5, peak := 3 }) ∧
    ∃ t u, Clears 0 1 relayed t ∧ t.pending.size = 2 ∧ Step 0 t u ∧
      u.run.stats.dropped = t.run.stats.dropped + 1 := by
  obtain ⟨hresult, hframes⟩ := loop_eq_recursion (σ := ChaCha.Generator) relay 0
  constructor
  · have hstats : ((relay.evaluateFrom 0 (ChaCha.Generator.ofSeed 7)).result.map
        fun e => e.stats) = .ok { processed := 12, dropped := 4, exhausted := 5, peak := 3 } := by
      decide +kernel
    rw [hresult] at hstats
    exact Fallible.map_eq_ok_iff.1 hstats
  · obtain ⟨hcleared, hkept⟩ := hframes relayed 1 ⟨⟨0, Nat.one_pos⟩, 0, 2, .identity⟩ rfl
    obtain ⟨t, hclears, hsize⟩ | ⟨e, herror⟩ := hcleared
    · obtain ⟨-, hdrop⟩ := hkept t hclears hsize
      obtain ⟨u, hstep, hdropped⟩ := hdrop.2 (.inr Nat.le.refl)
      exact ⟨t, u, hclears, hsize, hstep, hdropped⟩
    · have hok : (relayed.outcome 0).result.isOk = true := by decide +kernel
      rw [herror] at hok
      cases hok

end Grammar

end ProceduralShapes
