import ProceduralShapes.Proofs.Fallible
import ProceduralShapes.Proofs.Grammar.Offer

/-!
# Runs in lockstep

Two evaluations cannot be told apart if every pick of one goes as the pick of the other: both fail in
the same way, or give variants that offer the same. They may be of two grammars, whose variants stand
in other places and are written in other ways, and draw from two sources, as long as what relates the
sources goes on from pick to pick (`Lockstep`). So a grammar can be written in any way with the same
depth limit, rule names and offers (`evaluateFrom_congr`).
-/

namespace ProceduralShapes.Grammar

variable {α σ τ : Type} {g h : Grammar α} {R : σ → τ → Prop}

/-! ### What is seen without the grammar -/

/- A frame, by what its variant offers. -/
structure Sight (α : Type) where
  offer : Offer α
  depth : Nat
  restarts : Nat
  transform : Transform α

def Frame.sight (f : Frame g) : Sight α := ⟨g.offer f.variant, f.depth, f.restarts, f.transform⟩

def Callee.sight (c : Callee g) : Offer α × Transform α := (g.offer c.variant, c.transform)

/- The actions of two frames have come to the same, with the sources related. -/
structure Body.Same (R : σ → τ → Prop) (b : Body g σ) (c : Body h τ) : Prop where
  callees_eq : b.callees.map Callee.sight = c.callees.map Callee.sight
  placed_eq : b.placed = c.placed
  transform_eq : b.transform = c.transform
  source : R b.source c.source

theorem map_sight_frames {b : Body g σ} {c : Body h τ} (hsame : b.Same R c)
    (depth restarts : Nat) :
    (b.callees.map (Callee.frame depth restarts)).toArray.map Frame.sight =
      (c.callees.map (Callee.frame depth restarts)).toArray.map Frame.sight := by
  have hframes := congrArg
    (List.map fun seen : Offer α × Transform α => Sight.mk seen.1 depth restarts seen.2)
    hsame.callees_eq
  simp only [List.map_map] at hframes
  simp only [List.map_toArray, List.map_map]
  exact congrArg List.toArray hframes

/- Two runs have produced the same, with the sources related. -/
structure Run.Same (R : σ → τ → Prop) (r : Run α σ) (r' : Run α τ) : Prop where
  source : R r.source r'.source
  placed_eq : r.placed = r'.placed
  stats_eq : r.stats = r'.stats
  reported_eq : r.reported = r'.reported
  notified_eq : r.notified = r'.notified

theorem Run.Same.arrive {r : Run α σ} {r' : Run α τ} (hr : r.Same R r') (interval : Nat) :
    (r.arrive interval).Same R (r'.arrive interval) := by
  obtain ⟨source, placed, stats, reported, notified⟩ := r
  obtain ⟨source', placed', stats', reported', notified'⟩ := r'
  obtain ⟨hsource, rfl, rfl, rfl, rfl⟩ := hr
  unfold Run.arrive
  dsimp only
  split
  · exact ⟨hsource, rfl, rfl, rfl, rfl⟩
  · exact ⟨hsource, rfl, rfl, rfl, rfl⟩

/- What dealing with two frames leaves looks the same. -/
structure LeftSame (R : σ → τ → Prop) (left : Array (Frame g) × Run α σ)
    (left' : Array (Frame h) × Run α τ) : Prop where
  sight_eq : left.1.map Frame.sight = left'.1.map Frame.sight
  run : left.2.Same R left'.2

/-! ### Frames -/

section Picks
variable [RandomSource σ] [RandomSource τ]

/- Every pick from sources that are related goes in the same way, and leaves sources that are. -/
structure Lockstep (R : σ → τ → Prop) (g h : Grammar α) : Prop where
  maxDepth_eq : g.maxDepth = h.maxDepth
  pick : ∀ name source source', R source source' →
    Fallible.Both (fun p q => g.offer p.1 = h.offer q.1 ∧ R p.2 q.2)
      (g.pick name source) (h.pick name source')

theorem Lockstep.restart (hgh : Lockstep R g h) {f : Frame g} {f' : Frame h}
    (hf : f.sight = f'.sight) {r : Run α σ} {r' : Run α τ} (hr : r.Same R r') :
    Fallible.Both (LeftSame R) (f.restart r) (f'.restart r') := by
  simp only [Frame.sight, Sight.mk.injEq] at hf
  obtain ⟨hoffer, -, hrestarts, htransform⟩ := hf
  have hsuccessor : f.rule.successor? = f'.rule.successor? := congrArg Offer.successor? hoffer
  unfold Frame.restart
  rw [hsuccessor]
  cases f'.rule.successor? with
  | none => exact Fallible.both_ok ⟨by simp, hr⟩
  | some rule =>
    dsimp only
    rcases hgh.pick rule r.source r'.source hr.source with
      ⟨e, hg, hh⟩ | ⟨⟨i, next⟩, ⟨j, next'⟩, hg, hh, hij, hnext⟩
    · rw [hg, hh]
      exact Fallible.both_error e
    · rw [hg, hh]
      refine Fallible.both_ok ⟨?_, hnext, hr.placed_eq, hr.stats_eq, hr.reported_eq, hr.notified_eq⟩
      simp [Frame.sight, hij, hrestarts, htransform]

variable [Scalar α]

theorem Lockstep.body (hgh : Lockstep R g h) (xs : List (Action × Transform α)) (t : Transform α)
    {source : σ} {source' : τ} (hsource : R source source') :
    Fallible.Both (Body.Same R) (g.body xs t source) (h.body xs t source') := by
  induction xs generalizing t source source' with
  | nil => exact Fallible.both_ok ⟨rfl, rfl, rfl, hsource⟩
  | cons x rest ih =>
    obtain ⟨action, u⟩ := x
    cases action with
    | place shape =>
      simp only [Grammar.body]
      rcases ih (t * u) hsource with ⟨e, hg, hh⟩ | ⟨b, c, hg, hh, hbc⟩
      · rw [hg, hh]
        exact Fallible.both_error e
      · rw [hg, hh]
        exact Fallible.both_ok
          ⟨hbc.callees_eq, congrArg (_ :: ·) hbc.placed_eq, hbc.transform_eq, hbc.source⟩
    | call rule =>
      simp only [Grammar.body]
      rcases hgh.pick rule source source' hsource with
        ⟨e, hg, hh⟩ | ⟨⟨i, next⟩, ⟨j, next'⟩, hg, hh, hij, hnext⟩
      · rw [hg, hh]
        exact Fallible.both_error e
      · rw [hg, hh]
        dsimp only
        rcases ih (t * u) hnext with ⟨e, hg, hh⟩ | ⟨b, c, hg, hh, hbc⟩
        · rw [hg, hh]
          exact Fallible.both_error e
        · rw [hg, hh]
          refine Fallible.both_ok ⟨?_, hbc.placed_eq, hbc.transform_eq, hbc.source⟩
          rw [List.map_cons, List.map_cons, hbc.callees_eq, Callee.sight, Callee.sight, hij]

theorem Lockstep.expand (hgh : Lockstep R g h) {f : Frame g} {f' : Frame h}
    (hf : f.sight = f'.sight) (below : Nat) {r : Run α σ} {r' : Run α τ} (hr : r.Same R r') :
    Fallible.Both (LeftSame R) (f.expand below r) (f'.expand below r') := by
  simp only [Frame.sight, Sight.mk.injEq] at hf
  obtain ⟨hoffer, hdepth, hrestarts, htransform⟩ := hf
  have hrepetitions : f.rule.repetitions = f'.rule.repetitions := congrArg Offer.repetitions hoffer
  unfold Frame.expand
  dsimp only
  rw [all_eq_body, all_eq_body, hrepetitions, htransform]
  rcases hgh.body f'.rule.repetitions f'.transform hr.source with
    ⟨e, hg, hh⟩ | ⟨b, c, hg, hh, hbc⟩
  · rw [hg, hh]
    exact Fallible.both_error e
  · rw [hg, hh]
    have hsize : b.callees.length = c.callees.length := by
      have hlength := congrArg List.length hbc.callees_eq
      simpa only [List.length_map] using hlength
    refine Fallible.both_ok ⟨?_, hbc.source, ?_, ?_, hr.reported_eq, hr.notified_eq⟩
    · dsimp only
      rw [hdepth, hrestarts]
      exact map_sight_frames hbc _ _
    · dsimp only
      rw [hr.placed_eq, hbc.placed_eq]
    · simp only [List.size_toArray, List.length_map, hr.stats_eq, hsize]

theorem Lockstep.step (hgh : Lockstep R g h) {f : Frame g} {f' : Frame h}
    (hf : f.sight = f'.sight) (below : Nat) {r : Run α σ} {r' : Run α τ} (hr : r.Same R r') :
    Fallible.Both (LeftSame R) (f.step below r) (f'.step below r') := by
  have hsight := hf
  simp only [Frame.sight, Sight.mk.injEq] at hsight
  obtain ⟨hoffer, hdepth, hrestarts, -⟩ := hsight
  have hmaxDepth : f.rule.maxDepth? = f'.rule.maxDepth? := congrArg Offer.maxDepth? hoffer
  have hdropped : f.Dropped below ↔ f'.Dropped below := by
    rw [Frame.Dropped, Frame.Dropped, hgh.maxDepth_eq, hrestarts]
  have hlimit : f.limit ≤ f.depth ↔ f'.limit ≤ f'.depth := by
    rw [Frame.limit, Frame.limit, hmaxDepth, hgh.maxDepth_eq, hdepth]
  by_cases hdrop : f'.Dropped below
  · rw [step_of_dropped hdrop, step_of_dropped (hdropped.2 hdrop)]
    refine Fallible.both_ok
      ⟨by simp, hr.source, hr.placed_eq, ?_, hr.reported_eq, hr.notified_eq⟩
    simp only [Run.drop, hr.stats_eq]
  · by_cases hend : f'.limit ≤ f'.depth
    · rw [step_of_limit hdrop hend, step_of_limit (mt hdropped.1 hdrop) (hlimit.2 hend)]
      refine hgh.restart hf ⟨hr.source, hr.placed_eq, ?_, hr.reported_eq, hr.notified_eq⟩
      simp only [Run.exhaust, hr.stats_eq]
    · have hgo : ¬f.limit ≤ f.depth := mt hlimit.1 hend
      rw [step_of_lt_limit hdrop (Nat.not_le.1 hend),
        step_of_lt_limit (mt hdropped.1 hdrop) (Nat.not_le.1 hgo)]
      exact hgh.expand hf below hr

/-! ### Evaluations -/

/- The two evaluations have frames pending that look the same, and have produced the same. -/
structure State.Same (R : σ → τ → Prop) (s : State g σ) (s' : State h τ) : Prop where
  sight_eq : s.pending.map Frame.sight = s'.pending.map Frame.sight
  run : s.run.Same R s'.run

/- Where one evaluation has a frame on top, the other has one that looks the same, and dealing with
both leaves what looks the same. -/
theorem Lockstep.step_push (hgh : Lockstep R g h) {waiting : Array (Frame g)} {f : Frame g}
    {r : Run α σ} {s : State h τ} (hs : State.Same R ⟨waiting.push f, r⟩ s) (interval : Nat) :
    ∃ (waiting' : Array (Frame h)) (f' : Frame h) (r' : Run α τ), s = ⟨waiting'.push f', r'⟩ ∧
      waiting.map Frame.sight = waiting'.map Frame.sight ∧
      (r.arrive interval).Same R (r'.arrive interval) ∧
      Fallible.Both (LeftSame R) (f.step waiting.size (r.arrive interval))
        (f'.step waiting'.size (r'.arrive interval)) := by
  obtain ⟨pending, r'⟩ := s
  obtain ⟨hpending, hr⟩ := hs
  dsimp only at hpending hr
  have hsize := congrArg Array.size hpending
  simp only [Array.size_map, Array.size_push] at hsize
  obtain ⟨waiting', f', rfl⟩ := Array.exists_push_of_size_eq_add_one hsize.symm
  rw [Array.map_push, Array.map_push, Array.push_eq_push] at hpending
  obtain ⟨hf, hwaiting⟩ := hpending
  have hbelow : waiting.size = waiting'.size := by
    rw [Array.size_push] at hsize
    exact Nat.succ.inj hsize
  refine ⟨waiting', f', r', rfl, hwaiting, hr.arrive interval, ?_⟩
  rw [hbelow]
  exact hgh.step hf waiting'.size (hr.arrive interval)

theorem Lockstep.outcome_eq (hgh : Lockstep R g h) {interval n : Nat} {s : State g σ}
    {o : Outcome α} (hrun : Completes interval n s o) {s' : State h τ} (hs : s.Same R s') :
    s'.outcome interval = o := by
  induction hrun generalizing s' with
  | done r =>
    obtain ⟨pending, r'⟩ := s'
    obtain ⟨hpending, hr⟩ := hs
    have hempty : pending = #[] := by simpa using hpending.symm
    rw [State.outcome, hempty, loop_empty, ← hr.placed_eq, ← hr.stats_eq, ← hr.notified_eq]
  | fault hfail =>
    obtain ⟨hstep⟩ := hfail
    obtain ⟨waiting', f', r', rfl, -, harrive, hsteps⟩ := hgh.step_push hs interval
    rw [hstep] at hsteps
    rcases hsteps with ⟨e', he, hstep'⟩ | ⟨b, c, hb, -, -⟩
    · cases he
      rw [fails_outcome (.intro hstep')]
      dsimp only
      rw [harrive.notified_eq]
    · cases hb
  | step hstep _ ih =>
    obtain ⟨hleft⟩ := hstep
    obtain ⟨waiting', f', r', rfl, hwaiting, -, hsteps⟩ := hgh.step_push hs interval
    rw [hleft] at hsteps
    rcases hsteps with ⟨e', he, -⟩ | ⟨b, ⟨children', next'⟩, hb, hstep', hbc⟩
    · cases he
    · cases hb
      refine (step_outcome (.intro hstep')).trans (ih ⟨?_, hbc.run⟩)
      have hchildren := hbc.sight_eq
      dsimp only at hchildren ⊢
      rw [Array.map_append, Array.map_append, hwaiting, hchildren]

theorem Lockstep.evaluateFrom_eq (hgh : Lockstep R g h) (interval : Nat) {source : σ}
    {source' : τ} (hsource : R source source') :
    g.evaluateFrom interval source = h.evaluateFrom interval source' := by
  unfold evaluateFrom
  rcases hgh.pick entryRule source source' hsource with
    ⟨e, hg, hh⟩ | ⟨⟨i, next⟩, ⟨j, next'⟩, hg, hh, hij, hnext⟩
  · rw [hg, hh]
  · rw [hg, hh]
    let first : State g σ := ⟨#[⟨i, 0, 0, .identity⟩], { source := next }⟩
    let twin : State h τ := ⟨#[⟨j, 0, 0, .identity⟩], { source := next' }⟩
    obtain ⟨n, hrun⟩ := exists_completes interval first
    have hsame : first.Same R twin := by
      refine ⟨?_, hnext, rfl, rfl, rfl, rfl⟩
      simp [first, twin, Frame.sight, hij]
    exact (hgh.outcome_eq hrun hsame).symm

end Picks

/-! ### Grammars alike -/

/- Picking does not tell the two grammars apart. -/
structure Alike (g h : Grammar α) : Prop where
  maxDepth_eq : g.maxDepth = h.maxDepth
  mem_ruleNames_iff : ∀ name, name ∈ g.ruleNames ↔ name ∈ h.ruleNames
  offers_eq : ∀ name, g.offers name = h.offers name

section Alike
variable [RandomSource σ]

theorem Alike.lockstep (hgh : Alike g h) : Lockstep (Eq : σ → σ → Prop) g h := by
  refine ⟨hgh.maxDepth_eq, ?_⟩
  rintro name source _ rfl
  have hpick : (g.pick name source).map (fun picked => (g.offer picked.1, picked.2)) =
      (h.pick name source).map (fun picked => (h.offer picked.1, picked.2)) := by
    rw [pick_offer, pick_offer, hgh.offers_eq, ruleNames_eq hgh.mem_ruleNames_iff]
  have hboth := Fallible.both_of_map_eq hpick
  simpa only [Prod.mk.injEq] using hboth

theorem Alike.evaluateFrom_eq [Scalar α] (hgh : Alike g h) (interval : Nat) (source : σ) :
    g.evaluateFrom interval source = h.evaluateFrom interval source :=
  hgh.lockstep.evaluateFrom_eq interval rfl

end Alike

/-! ### Grammars written in other ways -/

theorem alike_declare {maxDepth : Nat} (hpos : 0 < maxDepth) {vs ws : List (Variant α)}
    (hnames : ∀ name, (∃ v ∈ vs, v.name = name) ↔ ∃ w ∈ ws, w.name = name)
    (hoffers : ∀ name, offersOf (vs.filter fun v => v.name = name) =
      offersOf (ws.filter fun w => w.name = name)) :
    Alike (declare maxDepth hpos vs) (declare maxDepth hpos ws) := by
  obtain ⟨hvs, hvariants, hdepth⟩ := indexed_declare maxDepth hpos vs
  obtain ⟨hws, hvariants', hdepth'⟩ := indexed_declare maxDepth hpos ws
  refine ⟨hdepth.trans hdepth'.symm, ?_, ?_⟩
  · intro name
    rw [hvs.mem_iff, hws.mem_iff, hvariants, hvariants']
    exact hnames name
  · intro name
    rw [offers_eq hvs, offers_eq hws, hvariants, hvariants']
    exact hoffers name

/- No seed and no interval tells the two grammars apart. -/
def Indistinguishable (σ : Type) [Scalar α] [RandomSource σ] (g h : Grammar α) : Prop :=
  ∀ interval (source : σ), g.evaluateFrom interval source = h.evaluateFrom interval source

section Declarations
variable {maxDepth : Nat} (hpos : 0 < maxDepth)

/- A variant without weight can be left out where its name has another variant. -/
theorem alike_of_weight_zero (vs ws : List (Variant α)) {v : Variant α} (hzero : v.weight = 0)
    (hother : ∃ w ∈ vs ++ ws, w.name = v.name) :
    Alike (declare maxDepth hpos (vs ++ v :: ws)) (declare maxDepth hpos (vs ++ ws)) := by
  refine alike_declare hpos ?_ ?_
  · intro name
    constructor
    · intro ⟨w, hw, hname⟩
      rcases List.mem_append.1 hw with hw | hw
      · exact ⟨w, List.mem_append_left _ hw, hname⟩
      · rcases List.mem_cons.1 hw with rfl | hw
        · rw [← hname]
          exact hother
        · exact ⟨w, List.mem_append_right _ hw, hname⟩
    · intro ⟨w, hw, hname⟩
      rcases List.mem_append.1 hw with hw | hw
      · exact ⟨w, List.mem_append_left _ hw, hname⟩
      · exact ⟨w, List.mem_append_right _ (List.mem_cons_of_mem _ hw), hname⟩
  · intro name
    rw [List.filter_append, List.filter_append, offersOf_append, offersOf_append, List.filter_cons]
    split
    · rw [← List.singleton_append, offersOf_append, offersOf_of_weight_zero hzero]
      rfl
    · rfl

/- Variants of two names can be declared in either order. -/
theorem alike_of_swap (vs ws : List (Variant α)) {v w : Variant α} (hne : v.name ≠ w.name) :
    Alike (declare maxDepth hpos (vs ++ v :: w :: ws))
      (declare maxDepth hpos (vs ++ w :: v :: ws)) := by
  have hperm : (vs ++ v :: w :: ws).Perm (vs ++ w :: v :: ws) :=
    (List.Perm.swap w v ws).append_left vs
  refine alike_declare hpos ?_ ?_
  · intro name
    simp only [hperm.mem_iff]
  · intro name
    by_cases hv : v.name = name
    · have hw : ¬w.name = name := fun hw => hne (hv.trans hw.symm)
      simp [List.filter_append, hv, hw]
    · simp [List.filter_append, List.filter_cons, hv]

/- A statement can be written as often as it is done. -/
theorem alike_unrolled (vs : List (Variant α)) :
    Alike (declare maxDepth hpos (vs.map Variant.unrolled)) (declare maxDepth hpos vs) := by
  refine alike_declare hpos ?_ ?_
  · intro name
    simp only [List.mem_map]
    constructor
    · intro ⟨w, ⟨v, hv, hw⟩, hname⟩
      exact ⟨v, hv, by rw [← hname, ← hw]; rfl⟩
    · intro ⟨v, hv, hname⟩
      exact ⟨v.unrolled, ⟨v, hv, rfl⟩, hname⟩
  · intro name
    have hfilter : (vs.map Variant.unrolled).filter (fun v => v.name = name) =
        (vs.filter fun v => v.name = name).map Variant.unrolled := by
      rw [List.filter_map]
      rfl
    rw [hfilter, offersOf_map_unrolled]

end Declarations

/- What an evaluation comes to depends only on the depth limit, the rule names and what can be
picked under each. So it matters neither whether variants without weight are there, nor how
declarations of several names are mixed, nor whether a statement is repeated by its count or by
hand. -/
theorem evaluateFrom_congr [Scalar α] [RandomSource σ] :
    (∀ g h : Grammar α, g.maxDepth = h.maxDepth →
      (∀ name, name ∈ g.ruleNames ↔ name ∈ h.ruleNames) →
      (∀ name, g.offers name = h.offers name) → Indistinguishable σ g h) ∧
    ∀ (maxDepth : Nat) (hpos : 0 < maxDepth) (vs ws : List (Variant α)),
      ((∀ name, (∃ v ∈ vs, v.name = name) ↔ ∃ w ∈ ws, w.name = name) →
        (∀ name, offersOf (vs.filter fun v => v.name = name) =
          offersOf (ws.filter fun w => w.name = name)) →
        Indistinguishable σ (declare maxDepth hpos vs) (declare maxDepth hpos ws)) ∧
      (∀ v : Variant α, v.weight = 0 → (∃ w ∈ vs ++ ws, w.name = v.name) →
        Indistinguishable σ (declare maxDepth hpos (vs ++ v :: ws))
          (declare maxDepth hpos (vs ++ ws))) ∧
      (∀ v w : Variant α, v.name ≠ w.name →
        Indistinguishable σ (declare maxDepth hpos (vs ++ v :: w :: ws))
          (declare maxDepth hpos (vs ++ w :: v :: ws))) ∧
      Indistinguishable σ (declare maxDepth hpos (vs.map Variant.unrolled))
        (declare maxDepth hpos vs) := by
  constructor
  · intro g h hdepth hnames hoffers
    have hgh : Alike g h := ⟨hdepth, hnames, hoffers⟩
    exact hgh.evaluateFrom_eq
  · intro maxDepth hpos vs ws
    refine ⟨?_, ?_, ?_, (alike_unrolled hpos vs).evaluateFrom_eq⟩
    · intro hnames hoffers
      exact (alike_declare hpos hnames hoffers).evaluateFrom_eq
    · intro v hzero hother
      exact (alike_of_weight_zero hpos vs ws hzero hother).evaluateFrom_eq
    · intro v w hne
      exact (alike_of_swap hpos vs ws hne).evaluateFrom_eq

/- A stem that calls two leaves by a count, and leaves of which one is never picked. -/
def stem : List (Variant Float) :=
  [{ name := entryRule, statements := [⟨.call "leaf", .identity, 2⟩] },
    { name := "leaf", weight := 0 },
    { name := "leaf", statements := [⟨.place "box", .identity, 1⟩] }]

/- The same in other words. -/
def stemInWords : List (Variant Float) :=
  [{ name := "leaf", statements := [⟨.place "box", .identity, 1⟩] },
    { name := entryRule,
      statements := [⟨.call "leaf", .identity, 1⟩, ⟨.call "leaf", .identity, 1⟩] }]

theorem stem_evaluateFrom_congr :
    (declare 3 (Nat.succ_pos 2) stem).evaluateFrom 1 (ChaCha.Generator.ofSeed 7) =
      (declare 3 (Nat.succ_pos 2) stemInWords).evaluateFrom 1 (ChaCha.Generator.ofSeed 7) := by
  refine (evaluateFrom_congr.2 3 (Nat.succ_pos 2) stem stemInWords).1 ?_ ?_ 1 _
  · intro name
    simp only [stem, stemInWords, List.mem_cons, List.not_mem_nil, or_false, exists_eq_or_imp,
      exists_eq_left]
    tauto
  · intro name
    have hne : entryRule ≠ "leaf" := by decide
    by_cases hentry : entryRule = name
    · have hleaf : "leaf" ≠ name := hentry ▸ hne.symm
      simp [stem, stemInWords, hentry, hleaf, offersOf, Variant.offer, Offer.share,
        Variant.repetitions]
    · by_cases hleaf : "leaf" = name
      · simp [stem, stemInWords, hentry, hleaf, offersOf, Variant.offer, Offer.share]
      · simp [stem, stemInWords, hentry, hleaf]

end ProceduralShapes.Grammar
