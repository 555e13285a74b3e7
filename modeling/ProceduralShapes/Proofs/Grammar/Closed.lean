import ProceduralShapes.Proofs.Grammar.Offer
import ProceduralShapes.Proofs.Random.Range

/-!
# Closed grammars

The rules that a grammar mentions are its entry rule, the targets of the calls that are made at
least once, and the successors. An evaluation fails only where it asks for one of them and none of
its variants has a weight (`unpickable_of_error`). So a closed grammar, in which every rule
mentioned can be picked, is evaluated to its end by any source in range.
-/

namespace ProceduralShapes

variable {α σ β : Type}

/- The rule that the statement calls, if it is done at all. -/
def Statement.callee? (s : Statement α) : Option String :=
  match s.action with
  | .call rule => if 0 < s.count then some rule else none
  | .place _ => none

/- The rules that a frame of the variant may ask for. -/
def Variant.mentioned (v : Variant α) : List String :=
  v.successor?.toList ++ v.statements.filterMap Statement.callee?

theorem mem_mentioned_of_call {v : Variant α} {rule : String} {u : Transform α}
    (h : (.call rule, u) ∈ v.repetitions) : rule ∈ v.mentioned := by
  obtain ⟨s, hs, hmem⟩ := List.mem_flatMap.1 h
  obtain ⟨hcount, heq⟩ := List.mem_replicate.1 hmem
  obtain ⟨haction, -⟩ := Prod.mk.inj heq
  refine List.mem_append_right _ (List.mem_filterMap.2 ⟨s, hs, ?_⟩)
  rw [Statement.callee?, ← haction]
  exact if_pos (Nat.pos_of_ne_zero hcount)

theorem mem_mentioned_of_successor {v : Variant α} {rule : String}
    (h : v.successor? = some rule) : rule ∈ v.mentioned :=
  List.mem_append_left _ (Option.mem_toList.2 h)

theorem eq_zero_of_total {f : β → Nat} {items : List β} (h : total f items = 0) :
    ∀ item ∈ items, f item = 0 := by
  induction items with
  | nil => simp
  | cons head rest ih =>
    rw [total_cons] at h
    intro item hitem
    rcases List.mem_cons.1 hitem with rfl | hitem
    · exact Nat.eq_zero_of_add_eq_zero_right h
    · exact ih (Nat.eq_zero_of_add_eq_zero_left h) item hitem

namespace Grammar

variable {g : Grammar α}

/- The rules that an evaluation of the grammar may ask for. -/
def mentioned (g : Grammar α) : List String :=
  entryRule :: g.variants.toList.flatMap Variant.mentioned

/- Some variant of the name has a weight. -/
def Pickable (g : Grammar α) (name : String) : Prop :=
  ∃ v ∈ g.variants.toList, v.name = name ∧ 0 < v.weight

/- Every rule that the grammar mentions can be picked. -/
def Closed (g : Grammar α) : Prop := ∀ name ∈ g.mentioned, g.Pickable name

instance (g : Grammar α) (name : String) : Decidable (g.Pickable name) :=
  inferInstanceAs (Decidable (∃ v ∈ g.variants.toList, _))

instance (g : Grammar α) : Decidable g.Closed :=
  inferInstanceAs (Decidable (∀ name ∈ g.mentioned, _))

/- Why a name cannot be picked, with the error that says so: there is no variant of it, or there are
variants but none has a weight. -/
inductive Unpickable (g : Grammar α) (name : String) : PickError → Prop
  | undeclared (hnone : ∀ v ∈ g.variants.toList, v.name ≠ name) :
      Unpickable g name (.noSuchRule name (closest? name g.ruleNames))
  | weightless (hsome : ∃ v ∈ g.variants.toList, v.name = name)
      (hzero : ∀ v ∈ g.variants.toList, v.name = name → v.weight = 0) :
      Unpickable g name (.noSelectableVariant name)

theorem not_pickable_of_unpickable {name : String} {e : PickError} (h : g.Unpickable name e) :
    ¬g.Pickable name := by
  intro hpickable
  obtain ⟨v, hv, hname, hweight⟩ := hpickable
  cases h with
  | undeclared hnone => exact hnone v hv hname
  | weightless _ hzero =>
    rw [hzero v hv hname] at hweight
    exact absurd hweight (by decide)

/-! ### Picks that fail -/

theorem weight_eq_zero_of_total (hg : g.Indexed) {name : String}
    (h : total g.weight (g.named name) = 0) :
    ∀ v ∈ g.variants.toList, v.name = name → v.weight = 0 := by
  have hmap : total (fun v : Variant α => v.weight.toNat) ((g.named name).map g.variant) = 0 := by
    rw [total_map]
    exact h
  rw [hg.named_eq] at hmap
  intro v hv hname
  have hzero := eq_zero_of_total hmap v (List.mem_filter.2 ⟨hv, by simpa using hname⟩)
  exact UInt32.toNat_inj.1 hzero

/- A number drawn in range always chooses a variant. -/
theorem unpickable_of_pick [RandomSource σ] (hσ : InRange σ) (hg : g.Indexed) {name : String}
    {source : σ} {e : PickError} (h : g.pick name source = .error e) : g.Unpickable name e := by
  simp only [pick_eq] at h
  split at h
  · rename_i hdeclared
    split at h
    · rename_i hzero
      cases h
      exact .weightless ((hg.mem_iff name).1 (mem_ruleNames.2 hdeclared))
        (weight_eq_zero_of_total hg hzero)
    · rename_i hpos
      have hdraw := hσ _ source (Nat.pos_of_ne_zero hpos)
      obtain ⟨i, hchosen⟩ := Weighted.exists_choose hdraw
      split at h
      · cases h
      · rename_i hnone
        rw [hchosen] at hnone
        cases hnone
  · rename_i hundeclared
    cases h
    refine .undeclared fun v hv hname => hundeclared ?_
    exact mem_ruleNames.1 ((hg.mem_iff name).2 ⟨v, hv, hname⟩)

/-! ### Frames and evaluations that fail -/

theorem mem_mentioned_of_variant {f : Frame g} {rule : String} (h : rule ∈ f.rule.mentioned) :
    rule ∈ g.mentioned :=
  List.mem_cons_of_mem _ (List.mem_flatMap.2 ⟨f.rule, variant_mem f.variant, h⟩)

section Runs
variable [Scalar α] [RandomSource σ] {interval : Nat}

/- Among the actions of a frame only a call can fail. -/
theorem call_of_each_error {f : Frame g} {xs : List (Action × Transform α)} {w : Work g σ}
    {e : PickError} (h : w.each f xs = .error e) :
    ∃ rule u source, (.call rule, u) ∈ xs ∧ g.pick rule (source : σ) = .error e := by
  induction xs generalizing w with
  | nil => cases h
  | cons x rest ih =>
    obtain ⟨action, u⟩ := x
    rw [Work.each] at h
    split at h
    · obtain ⟨rule, u', source, hmem, hpick⟩ := ih h
      exact ⟨rule, u', source, List.mem_cons_of_mem _ hmem, hpick⟩
    · rename_i e' honce
      cases h
      obtain ⟨source, t, children, placed⟩ := w
      cases action with
      | place shape => cases honce
      | call rule =>
        simp only [Work.once] at honce
        split at honce
        · cases honce
        · rename_i e' hpick
          cases honce
          exact ⟨rule, u, source, List.mem_cons_self, hpick⟩

theorem unpickable_of_blocked (hσ : InRange σ) (hg : g.Indexed) {f : Frame g} {below : Nat}
    {r : Run α σ} {e : PickError} (h : f.Blocked below r e) :
    ∃ name ∈ g.mentioned, g.Unpickable name e := by
  cases h with
  | @successor rule _ _ _ hsome hpick =>
    exact ⟨rule, mem_mentioned_of_variant (mem_mentioned_of_successor hsome),
      unpickable_of_pick hσ hg hpick⟩
  | call _ _ hwork =>
    rw [all_eq_each] at hwork
    obtain ⟨rule, u, source, hmem, hpick⟩ := call_of_each_error hwork
    exact ⟨rule, mem_mentioned_of_variant (mem_mentioned_of_call hmem),
      unpickable_of_pick hσ hg hpick⟩

theorem unpickable_of_completes (hσ : InRange σ) (hg : g.Indexed) {n : Nat} {s : State g σ}
    {o : Outcome α} (h : Completes interval n s o) {e : PickError} (he : o.result = .error e) :
    ∃ name ∈ g.mentioned, g.Unpickable name e := by
  induction h with
  | done r => cases he
  | fault hfail =>
    obtain ⟨hstep⟩ := hfail
    cases he
    exact unpickable_of_blocked hσ hg (blocked_of_step hstep)
  | step _ _ ih => exact ih he

theorem unpickable_of_error (hσ : InRange σ) (hg : g.Indexed) {source : σ} {e : PickError}
    (h : (g.evaluateFrom interval source).result = .error e) :
    ∃ name ∈ g.mentioned, g.Unpickable name e := by
  unfold evaluateFrom at h
  split at h
  · rename_i i next _
    obtain ⟨n, hrun⟩ := exists_completes interval (⟨#[⟨i, 0, 0, .identity⟩], { source := next }⟩ :
      State g σ)
    exact unpickable_of_completes hσ hg hrun h
  · rename_i e' hpick
    cases h
    exact ⟨entryRule, List.mem_cons_self, unpickable_of_pick hσ hg hpick⟩

theorem evaluates_of_closed (hσ : InRange σ) (hg : g.Indexed) (hclosed : g.Closed)
    (interval : Nat) (source : σ) : ∃ e, (g.evaluateFrom interval source).result = .ok e := by
  cases hresult : (g.evaluateFrom interval source).result with
  | ok e => exact ⟨e, rfl⟩
  | error e =>
    obtain ⟨name, hname, hunpickable⟩ := unpickable_of_error hσ hg hresult
    exact absurd (hclosed name hname) (not_pickable_of_unpickable hunpickable)

/- A closed grammar is evaluated to its end, whatever is drawn. Where an evaluation fails, it has
asked for a rule that the grammar mentions and that has no variants, or none with a weight. The
weights of the variants of a name are added up without a bound; with fewer than 2^32 variants the
sum in 64 bits is the same, and so is the choice (`pick64?_eq`). -/
theorem evaluates_or_unpickable (hσ : InRange σ) (maxDepth : Nat) (hpos : 0 < maxDepth)
    (vs : List (Variant α)) (interval : Nat) (source : σ) :
    ((declare maxDepth hpos vs).Closed →
      ∃ e, ((declare maxDepth hpos vs).evaluateFrom interval source).result = .ok e) ∧
    ∀ err, ((declare maxDepth hpos vs).evaluateFrom interval source).result = .error err →
      ∃ name ∈ (declare maxDepth hpos vs).mentioned,
        (declare maxDepth hpos vs).Unpickable name err := by
  have hg := (indexed_declare maxDepth hpos vs).1
  constructor
  · intro hclosed
    exact evaluates_of_closed hσ hg hclosed interval source
  · intro err herror
    exact unpickable_of_error hσ hg herror

end Runs

/- Three vanes on an axle, each with a tip at its end. The call that is made no times and the vane
without weight ask for nothing that is not there. -/
def pinwheelRules : List (Variant Float) :=
  [{ name := entryRule
     statements := [⟨.call "vane", .identity, 3⟩, ⟨.call "sail", .identity, 0⟩] },
   { name := "vane", weight := 2, maxDepth? := some 1, successor? := some "tip" },
   { name := "vane", weight := 0, statements := [⟨.call entryRule, .identity, 1⟩] },
   { name := "tip", statements := [⟨.place "box", .identity, 1⟩] }]

/- A stem that ends in a leaf that no longer grows. -/
def witheredRules : List (Variant Float) :=
  [{ name := entryRule, maxDepth? := some 0, successor? := some "leaf" },
   { name := "leaf", weight := 0 }]

theorem pinwheel_evaluates :
    (InRange ChaCha.Generator ∧ (declare 4 (by decide) pinwheelRules).Closed ∧
      ∃ e, ((declare 4 (by decide) pinwheelRules).evaluateFrom 0
        (ChaCha.Generator.ofSeed 7)).result = .ok e) ∧
    ∃ err, ((declare 4 (by decide) witheredRules).evaluateFrom 0
        (ChaCha.Generator.ofSeed 7)).result = .error err ∧
      ∃ name ∈ (declare 4 (by decide) witheredRules).mentioned,
        (declare 4 (by decide) witheredRules).Unpickable name err := by
  have hσ := ChaCha.Generator.inRange_generator
  have hclosed : (declare 4 (by decide) pinwheelRules).Closed := by decide +kernel
  have hfails : ((declare 4 (by decide) witheredRules).evaluateFrom 0
      (ChaCha.Generator.ofSeed 7)).result.isOk = false := by decide +kernel
  have hpinwheel := evaluates_or_unpickable hσ 4 (by decide) pinwheelRules 0
    (ChaCha.Generator.ofSeed 7)
  have hwithered := evaluates_or_unpickable hσ 4 (by decide) witheredRules 0
    (ChaCha.Generator.ofSeed 7)
  refine ⟨⟨hσ, hclosed, hpinwheel.1 hclosed⟩, ?_⟩
  cases hresult : ((declare 4 (by decide) witheredRules).evaluateFrom 0
      (ChaCha.Generator.ofSeed 7)).result with
  | ok e =>
    rw [hresult] at hfails
    cases hfails
  | error err => exact ⟨err, rfl, hwithered.2 err hresult⟩

end Grammar

end ProceduralShapes
