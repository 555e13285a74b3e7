import ProceduralShapes.Proofs.Grammar.StackBound
import ProceduralShapes.Proofs.Fallible

/-!
# Every frame is counted once

An evaluation that ends well takes its frames off one by one (`Turns`). Each is dropped, or ends at
its limit, or has its statements executed, and leaves as many frames behind as that says. The frames
taken off are the entry rule's frame and those left behind, each once (`Turns.perm`), so the counts
of an evaluation add up (`frames_conserved`).
-/

namespace ProceduralShapes

variable {α σ : Type}

def Statement.places (s : Statement α) : Nat :=
  match s.action with
  | .call _ => 0
  | .place _ => s.count

/- How many placements a frame of the variant makes when its statements are executed. -/
def Variant.places (v : Variant α) : Nat := total Statement.places v.statements

/- How many of the actions are placements. -/
def placeCount (xs : List (Action × Transform α)) : Nat :=
  total (fun x => (⟨x.1, x.2, 1⟩ : Statement α).places) xs

theorem placeCount_repetitions (v : Variant α) : placeCount v.repetitions = v.places := by
  rw [placeCount, total_repetitions, Variant.places]
  refine congrArg (fun h => total h v.statements) (funext fun s => ?_)
  simp only [Statement.places]
  cases s.action with
  | call rule => exact Nat.mul_zero s.count
  | place shape => exact Nat.mul_one s.count

namespace Grammar

variable {g : Grammar α}

/-! ### Turns -/

/- What becomes of a frame that is taken off. -/
inductive Fate
  | dropped
  | exhausted
  | executed
deriving DecidableEq, Repr

/- A frame that was taken off while so many others waited below it, and the frames that it left. -/
structure Turn (g : Grammar α) where
  frame : Frame g
  below : Nat
  children : Array (Frame g)

namespace Turn

def fate (t : Turn g) : Fate :=
  if t.frame.Dropped t.below then .dropped
  else if t.frame.limit ≤ t.frame.depth then .exhausted
  else .executed

/- Whether the variant of the frame has a successor. -/
def succeeded (t : Turn g) : Bool := t.frame.rule.successor?.isSome

/- How many frames the frame leaves behind. -/
def spawns (t : Turn g) : Nat :=
  match t.fate with
  | .dropped => 0
  | .exhausted => if t.succeeded then 1 else 0
  | .executed => t.frame.rule.calls

/- How many placements the frame makes. -/
def places (t : Turn g) : Nat :=
  match t.fate with
  | .dropped => 0
  | .exhausted => 0
  | .executed => t.frame.rule.places

end Turn

/- The turns of this fate. -/
def ofFate (fate : Fate) (turns : List (Turn g)) : List (Turn g) :=
  turns.filter fun t => t.fate = fate

theorem ofFate_cons (fate : Fate) (t : Turn g) (turns : List (Turn g)) :
    ofFate fate (t :: turns) =
      if t.fate = fate then t :: ofFate fate turns else ofFate fate turns := by
  simp only [ofFate, List.filter_cons, decide_eq_true_eq]

/- Every turn has one fate. -/
theorem length_eq_fates (turns : List (Turn g)) :
    turns.length = (ofFate .dropped turns).length + (ofFate .exhausted turns).length +
      (ofFate .executed turns).length := by
  induction turns with
  | nil => rfl
  | cons t turns ih =>
    simp only [ofFate_cons, List.length_cons, ih]
    cases t.fate with
    | dropped =>
      simp only [reduceCtorEq, if_true, if_false, List.length_cons]
      omega
    | exhausted =>
      simp only [reduceCtorEq, if_true, if_false, List.length_cons]
      omega
    | executed =>
      simp only [reduceCtorEq, if_true, if_false, List.length_cons]
      omega

theorem total_spawns (turns : List (Turn g)) :
    total Turn.spawns turns = total (fun t => t.frame.rule.calls) (ofFate .executed turns) +
      ((ofFate .exhausted turns).filter Turn.succeeded).length := by
  induction turns with
  | nil => rfl
  | cons t turns ih =>
    simp only [ofFate_cons, total_cons, ih, Turn.spawns]
    cases t.fate with
    | dropped => simp
    | exhausted =>
      cases hsucceeded : t.succeeded with
      | true =>
        simp only [reduceCtorEq, if_true, if_false, List.filter_cons, hsucceeded, List.length_cons]
        omega
      | false => simp [hsucceeded]
    | executed =>
      simp only [reduceCtorEq, if_true, if_false, total_cons]
      omega

theorem total_places (turns : List (Turn g)) :
    total Turn.places turns = total (fun t => t.frame.rule.places) (ofFate .executed turns) := by
  induction turns with
  | nil => rfl
  | cons t turns ih =>
    simp only [ofFate_cons, total_cons, ih, Turn.places]
    cases t.fate with
    | dropped => simp
    | exhausted => simp
    | executed => simp

theorem fate_of_dropped {t : Turn g} (h : t.frame.Dropped t.below) : t.fate = .dropped := if_pos h

theorem fate_of_limit {t : Turn g} (h : ¬t.frame.Dropped t.below)
    (hlimit : t.frame.limit ≤ t.frame.depth) : t.fate = .exhausted := by
  rw [Turn.fate, if_neg h, if_pos hlimit]

theorem fate_of_lt_limit {t : Turn g} (h : ¬t.frame.Dropped t.below)
    (hlimit : t.frame.depth < t.frame.limit) : t.fate = .executed := by
  rw [Turn.fate, if_neg h, if_neg (Nat.not_le.2 hlimit)]

/-! ### What turns add -/

/- Between the two runs lie these turns: what they did is all that was added. -/
structure Adds (turns : List (Turn g)) (r next : Run α σ) : Prop where
  spawned : ∀ t ∈ turns, t.children.size = t.spawns
  placed : next.placed.size = r.placed.size + total Turn.places turns
  processed : next.stats.processed = r.stats.processed + turns.length
  dropped : next.stats.dropped = r.stats.dropped + (ofFate .dropped turns).length
  exhausted : next.stats.exhausted = r.stats.exhausted + (ofFate .exhausted turns).length

theorem Adds.refl (r : Run α σ) : Adds ([] : List (Turn g)) r r :=
  ⟨by simp, rfl, rfl, rfl, rfl⟩

theorem Adds.append {xs ys : List (Turn g)} {r r' r'' : Run α σ} (h : Adds xs r r')
    (h' : Adds ys r' r'') : Adds (xs ++ ys) r r'' where
  spawned := List.forall_mem_append.2 ⟨h.spawned, h'.spawned⟩
  placed := by rw [h'.placed, h.placed, total_append, Nat.add_assoc]
  processed := by rw [h'.processed, h.processed, List.length_append, Nat.add_assoc]
  dropped := by
    rw [h'.dropped, h.dropped, ofFate, ofFate, ofFate, List.filter_append, List.length_append,
      Nat.add_assoc]
  exhausted := by
    rw [h'.exhausted, h.exhausted, ofFate, ofFate, ofFate, List.filter_append, List.length_append,
      Nat.add_assoc]

/- Where each turn leaves as many frames as it should, they are so many together. -/
theorem length_children {turns : List (Turn g)} (h : ∀ t ∈ turns, t.children.size = t.spawns) :
    (turns.flatMap fun t => t.children.toList).length = total Turn.spawns turns := by
  induction turns with
  | nil => rfl
  | cons t turns ih =>
    obtain ⟨ht, hturns⟩ := List.forall_mem_cons.1 h
    rw [List.flatMap_cons, List.length_append, Array.length_toList, ht, ih hturns, total_cons]

section Runs
variable [Scalar α] [RandomSource σ] {interval : Nat}

/- Each call leaves a frame behind, and each placement is made. -/
theorem length_of_body {xs : List (Action × Transform α)} {t : Transform α} {source : σ}
    {b : Body g σ} (h : g.body xs t source = .ok b) :
    b.callees.length = callCount xs ∧ b.placed.length = placeCount xs := by
  induction xs generalizing t source b with
  | nil =>
    cases h
    exact ⟨rfl, rfl⟩
  | cons x rest ih =>
    obtain ⟨action, u⟩ := x
    simp only [callCount, placeCount, total_cons, Statement.calls, Statement.places] at ih ⊢
    cases action with
    | place shape =>
      rw [body] at h
      obtain ⟨b', hb, rfl⟩ := Fallible.map_eq_ok_iff.1 h
      obtain ⟨hcallees, hplaced⟩ := ih hb
      dsimp only
      rw [List.length_cons]
      omega
    | call rule =>
      rw [body] at h
      split at h
      · cases h
      · obtain ⟨b', hb, rfl⟩ := Fallible.map_eq_ok_iff.1 h
        obtain ⟨hcallees, hplaced⟩ := ih hb
        dsimp only
        rw [List.length_cons]
        omega

theorem size_of_all {f : Frame g} {source : σ} {t : Transform α} {placed : Array (Placement α)}
    {w : Work g σ} (h : Work.all f f.rule.statements ⟨source, t, #[], placed⟩ = .ok w) :
    w.children.size = f.rule.calls ∧ w.placed.size = placed.size + f.rule.places := by
  rw [all_eq_body] at h
  obtain ⟨b, hb, rfl⟩ := Fallible.map_eq_ok_iff.1 h
  obtain ⟨hcallees, hplaced⟩ := length_of_body hb
  rw [callCount_repetitions] at hcallees
  rw [placeCount_repetitions] at hplaced
  dsimp only
  rw [Array.size_append, List.size_toArray, List.size_toArray, List.length_map]
  exact ⟨hcallees, congrArg _ hplaced⟩

theorem adds_of_step {f : Frame g} {below : Nat} {r next : Run α σ} {children : Array (Frame g)}
    (h : f.step below (r.arrive interval) = .ok (children, next)) :
    Adds [⟨f, below, children⟩] r next := by
  cases leaves_of_step h with
  | dropped hdrop =>
    have hfate : Turn.fate ⟨f, below, #[]⟩ = .dropped := fate_of_dropped hdrop
    constructor <;> simp [ofFate, Turn.spawns, Turn.places, hfate, Run.drop]
  | ended hkept hlimit hnone =>
    have hfate : Turn.fate ⟨f, below, #[]⟩ = .exhausted := fate_of_limit hkept hlimit
    constructor <;>
      simp [ofFate, Turn.spawns, Turn.places, Turn.succeeded, hfate, hnone, Run.exhaust]
  | @restarted rule i source hkept hlimit hsome hpick =>
    have hfate : Turn.fate ⟨f, below, #[⟨i, 0, f.restarts + 1, f.transform⟩]⟩ = .exhausted :=
      fate_of_limit hkept hlimit
    constructor <;>
      simp [ofFate, Turn.spawns, Turn.places, Turn.succeeded, hfate, hsome, Run.exhaust]
  | @expanded w hkept hlimit hwork =>
    have hfate : Turn.fate ⟨f, below, w.children⟩ = .executed := fate_of_lt_limit hkept hlimit
    obtain ⟨hchildren, hplaced⟩ := size_of_all hwork
    rw [arrive_placed] at hplaced
    constructor <;> simp [ofFate, Turn.spawns, Turn.places, hfate, hchildren, hplaced]

/-! ### Runs turn by turn -/

/- From the state the run takes these turns until no frame is pending. -/
inductive Turns (interval : Nat) : State g σ → List (Turn g) → Run α σ → Prop
  | done (r : Run α σ) : Turns interval ⟨#[], r⟩ [] r
  | turn {waiting children : Array (Frame g)} {f : Frame g} {r next last : Run α σ}
      {turns : List (Turn g)}
      (h : f.step waiting.size (r.arrive interval) = .ok (children, next))
      (hrest : Turns interval ⟨waiting ++ children, next⟩ turns last) :
      Turns interval ⟨waiting.push f, r⟩ (⟨f, waiting.size, children⟩ :: turns) last

variable {s : State g σ} {turns : List (Turn g)} {last : Run α σ}

theorem Turns.adds (h : Turns interval s turns last) : Adds turns s.run last := by
  induction h with
  | done r => exact .refl r
  | turn hstep _ ih => exact (adds_of_step hstep).append ih

/- The frames that were pending and those left behind are the frames taken off, each once. -/
theorem Turns.perm (h : Turns interval s turns last) :
    (s.pending.toList ++ turns.flatMap fun t => t.children.toList).Perm
      (turns.map Turn.frame) := by
  induction h with
  | done r => exact .refl []
  | @turn waiting children f r next last turns hstep _ ih =>
    rw [Array.toList_append] at ih
    simp only [List.flatMap_cons, List.map_cons, Array.toList_push, List.append_assoc,
      List.singleton_append] at ih ⊢
    -- The frame taken off was the last one pending, before all that it leaves behind.
    exact List.perm_middle.trans (ih.cons f)

theorem exists_turns {n : Nat} {o : Outcome α} (h : Completes interval n s o)
    {e : Evaluation α} (he : o.result = .ok e) :
    ∃ turns last, Turns interval s turns last ∧ e = ⟨last.placed, last.stats⟩ := by
  induction h with
  | done r =>
    cases he
    exact ⟨[], r, .done r, rfl⟩
  | fault => cases he
  | step hstep _ ih =>
    obtain ⟨hleft⟩ := hstep
    obtain ⟨turns, last, hturns, heq⟩ := ih he
    exact ⟨_, last, .turn hleft hturns, heq⟩

/- The evaluation takes these turns and comes to this result. -/
def History (g : Grammar α) (interval : Nat) (source : σ) (turns : List (Turn g))
    (e : Evaluation α) : Prop :=
  ∃ i source' last, g.pick entryRule source = .ok (i, source') ∧
    Turns interval ⟨#[⟨i, 0, 0, .identity⟩], { source := source' }⟩ turns last ∧
    e = ⟨last.placed, last.stats⟩

theorem exists_history {source : σ} {e : Evaluation α}
    (he : (g.evaluateFrom interval source).result = .ok e) :
    ∃ turns, g.History interval source turns e := by
  obtain ⟨i, source', n, o, hpick, hrun, ho⟩ := exists_completes_of_ok he
  obtain ⟨turns, last, hturns, heq⟩ := exists_turns hrun ho
  exact ⟨turns, i, source', last, hpick, hturns, heq⟩

/- As many frames are taken off as there were at first and were left behind. -/
theorem length_turns (h : Turns interval s turns last) :
    turns.length = s.pending.size + total Turn.spawns turns := by
  have hlength := h.perm.length_eq
  rw [List.length_append, List.length_map, Array.length_toList,
    length_children h.adds.spawned] at hlength
  exact hlength.symm

/- The frames taken off fall into those dropped, those at their limit and those executed. They are
the entry rule's frame with all that were called or put in as successors, each once. The placements
are those of the statements executed. -/
theorem frames_conserved (g : Grammar α) (interval : Nat) (source : σ) (e : Evaluation α)
    (he : (g.evaluateFrom interval source).result = .ok e) :
    (∃ turns, g.History interval source turns e) ∧
    ∀ turns, g.History interval source turns e →
      let executed := ofFate .executed turns
      e.stats.processed = e.stats.dropped + e.stats.exhausted + executed.length ∧
      e.stats.processed = 1 + total (fun t => t.frame.rule.calls) executed +
        ((ofFate .exhausted turns).filter fun t => t.frame.rule.successor?.isSome).length ∧
      e.placed.size = total (fun t => t.frame.rule.places) executed ∧
      e.stats.processed = turns.length ∧
      e.stats.dropped = (ofFate .dropped turns).length ∧
      e.stats.exhausted = (ofFate .exhausted turns).length ∧
      ∃ i, ((⟨i, 0, 0, .identity⟩ : Frame g) :: turns.flatMap fun t => t.children.toList).Perm
        (turns.map Turn.frame) := by
  refine ⟨exists_history he, ?_⟩
  rintro turns ⟨i, source', last, -, hturns, rfl⟩
  have hadds := hturns.adds
  have hlength := length_turns hturns
  have hprocessed : last.stats.processed = turns.length := by simpa using hadds.processed
  have hdropped : last.stats.dropped = (ofFate .dropped turns).length := by
    simpa using hadds.dropped
  have hexhausted : last.stats.exhausted = (ofFate .exhausted turns).length := by
    simpa using hadds.exhausted
  have hplaced : last.placed.size = total Turn.places turns := by simpa using hadds.placed
  refine ⟨?_, ?_, ?_, hprocessed, hdropped, hexhausted, i, hturns.perm⟩
  · dsimp only
    rw [hprocessed, hdropped, hexhausted, length_eq_fates]
  · rw [total_spawns] at hlength
    exact hprocessed.trans (hlength.trans (Nat.add_assoc 1 _ _).symm)
  · exact hplaced.trans (total_places turns)

end Runs

/- Its entry rule calls itself twice and places a stem; its successor places three leaves. -/
def thicket : Grammar Float :=
  [{ name := entryRule, successor? := some "bud",
     statements := [⟨.call entryRule, .identity, 2⟩, ⟨.place "stem", .identity, 1⟩] },
   { name := "bud", statements := [⟨.place "leaf", .identity, 3⟩] }].foldl add
    { maxDepth := 2, maxDepth_pos := Nat.two_pos }

/- Of its ten frames one is dropped, three end at their limit and six are executed. -/
theorem thicket_frames_conserved : ∃ e turns,
    (thicket.evaluateFrom 0 (ChaCha.Generator.ofSeed 7)).result = .ok e ∧
    thicket.History 0 (ChaCha.Generator.ofSeed 7) turns e ∧
    e.stats = { processed := 10, dropped := 1, exhausted := 3, peak := 3 } ∧
    (ofFate .executed turns).length = 6 ∧
    10 = 1 + total (fun t => t.frame.rule.calls) (ofFate .executed turns) +
      ((ofFate .exhausted turns).filter fun t => t.frame.rule.successor?.isSome).length ∧
    12 = total (fun t => t.frame.rule.places) (ofFate .executed turns) := by
  have hcounts : ((thicket.evaluateFrom 0 (ChaCha.Generator.ofSeed 7)).result.map
      fun e => (e.stats, e.placed.size)) =
        .ok ({ processed := 10, dropped := 1, exhausted := 3, peak := 3 }, 12) := by
    decide +kernel
  obtain ⟨e, he, hboth⟩ := Fallible.map_eq_ok_iff.1 hcounts
  obtain ⟨hstats, hsize⟩ := Prod.mk.inj hboth
  obtain ⟨⟨turns, hturns⟩, hall⟩ := frames_conserved thicket 0 (ChaCha.Generator.ofSeed 7) e he
  obtain ⟨hfates, hpushed, hplaced, -⟩ := hall turns hturns
  rw [hstats] at hfates hpushed
  rw [hsize] at hplaced
  have hexecuted : 10 = 1 + 3 + (ofFate .executed turns).length := hfates
  exact ⟨e, turns, he, hturns, hstats, by omega, hpushed, hplaced⟩

end Grammar

end ProceduralShapes
