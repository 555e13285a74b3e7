import ProceduralShapes.Grammar.Document
import ProceduralShapes.Proofs.Grammar.Closed
import ProceduralShapes.Proofs.Grammar.Motion

/-!
# Loading a document of rules

The faults of a document stand in an order: that of its depth limit first, then those of its rules,
one rule behind the other. Loading fails with the first of them (`blames_build`), and where there
are none it gives one variant for each rule (`build_eq_ok_iff`). All the specs are read by then, so
a run of the grammar has only names to fail on.
-/

namespace ProceduralShapes.Grammar

open Decimal (Numeral)
open Fallible

variable {α : Type}

namespace Document

/-! ### Faults -/

/- The fault, unless the condition holds. -/
def faultUnless (p : Prop) [Decidable p] (fault : LoadError) : List LoadError :=
  if p then [] else [fault]

def limitFaults (d : Document) : List LoadError :=
  match d.maxDepth? with
  | none => [.missingAttribute "rules" "max_depth"]
  | some limit => faultUnless (1 ≤ limit) .invalidMaxDepth

section Faults
variable (α) [Scalar α] [Numeral α]

def specFaults (spec : String) : List LoadError :=
  match (Spec.motions spec : Except Spec.Error (List (Motion α))) with
  | .ok _ => []
  | .error e => [.spec e]

def Statement.faults (s : Statement) : List LoadError :=
  faultUnless s.target?.isSome (.missingAttribute s.kind.element s.kind.targetKey) ++
    specFaults α s.spec

def Rule.faults (r : Rule) : List LoadError :=
  (r.maxDepth?.toList.flatMap fun n => faultUnless (0 ≤ n) .invalidMaxDepth) ++
    r.statements.flatMap (Statement.faults α)

/- All that is wrong with a document, in its order. -/
def faults (d : Document) : List LoadError := limitFaults d ++ d.rules.flatMap (Rule.faults α)

/- The spec can be read. -/
def Readable (spec : String) : Prop := ∃ ms : List (Motion α), Spec.motions spec = .ok ms

end Faults

theorem faultUnless_eq_nil {p : Prop} [Decidable p] {fault : LoadError} :
    faultUnless p fault = [] ↔ p := by
  rw [faultUnless, ite_eq_left_iff, imp_iff_not (List.cons_ne_nil fault []), not_not]

theorem limitFaults_eq_nil {d : Document} :
    limitFaults d = [] ↔ ∃ limit, d.maxDepth? = some limit ∧ 1 ≤ limit := by
  unfold limitFaults
  cases d.maxDepth? with
  | none => simp
  | some limit => simp [faultUnless_eq_nil]

section Accepted
variable [Scalar α] [Numeral α]

theorem specFaults_eq_nil {spec : String} : specFaults α spec = [] ↔ Readable α spec := by
  unfold specFaults Readable
  cases (Spec.motions spec : Except Spec.Error (List (Motion α))) with
  | ok ms => simp
  | error e => simp

theorem Rule.faults_eq_nil {r : Rule} : r.faults α = [] ↔
    (∀ n, r.maxDepth? = some n → 0 ≤ n) ∧
      ∀ s ∈ r.statements, s.target?.isSome ∧ Readable α s.spec := by
  simp only [Rule.faults, Statement.faults, List.append_eq_nil_iff, List.flatMap_eq_nil_iff,
    Option.mem_toList, faultUnless_eq_nil, specFaults_eq_nil]

theorem faults_eq_nil {d : Document} : d.faults α = [] ↔
    (∃ limit, d.maxDepth? = some limit ∧ 1 ≤ limit) ∧
      ∀ r ∈ d.rules, (∀ n, r.maxDepth? = some n → 0 ≤ n) ∧
        ∀ s ∈ r.statements, s.target?.isSome ∧ Readable α s.spec := by
  simp only [faults, List.append_eq_nil_iff, List.flatMap_eq_nil_iff, limitFaults_eq_nil,
    Rule.faults_eq_nil]

end Accepted

/-! ### The first fault -/

theorem depth_eq_ok_iff {n : Int} {k : Nat} : depth n = .ok k ↔ n = k := by
  unfold depth
  split
  · constructor
    · nofun
    · omega
  · rw [Except.ok.injEq]
    omega

theorem mapM_depth_eq_ok_iff {n? : Option Int} {k? : Option Nat} :
    n?.mapM depth = .ok k? ↔ k?.map Nat.cast = n? := by
  cases n? with
  | none =>
    change Except.ok none = Except.ok k? ↔ _
    rw [Except.ok.injEq, Option.map_eq_none_iff, eq_comm]
  | some n =>
    change (depth n).map some = .ok k? ↔ _
    simp only [map_eq_ok_iff, depth_eq_ok_iff, Option.map_eq_some_iff]
    exact ⟨fun ⟨k, hn, hk⟩ => ⟨k, hk.symm, hn.symm⟩, fun ⟨k, hk, hn⟩ => ⟨k, hn.symm, hk.symm⟩⟩

theorem ofMaxDepth_eq_ok_iff {maxDepth : Nat} {g : Grammar α} :
    ofMaxDepth maxDepth = .ok g ↔ ∃ hpos : 0 < maxDepth, g = declare maxDepth hpos [] := by
  unfold ofMaxDepth
  split
  · rename_i hpos
    rw [Except.ok.injEq, eq_comm, exists_prop_of_true hpos]
    rfl
  · rename_i hzero
    constructor
    · intro h
      cases h
    · rintro ⟨hpos, -⟩
      exact absurd hpos hzero

theorem blames_faultUnless {β : Type} {p : Prop} [Decidable p] {fault : LoadError}
    {x : Except LoadError β} (hok : p → ∃ b, x = .ok b) (herror : ¬p → x = .error fault) :
    Blames (faultUnless p fault) x := by
  unfold faultUnless
  split
  · rename_i hp
    obtain ⟨b, rfl⟩ := hok hp
    exact blames_ok b
  · rename_i hp
    rw [herror hp]
    exact blames_error fault []

theorem blames_depth? (n? : Option Int) :
    Blames (n?.toList.flatMap fun n => faultUnless (0 ≤ n) .invalidMaxDepth) (n?.mapM depth) := by
  cases n? with
  | none => exact blames_ok none
  | some n =>
    have hdepth : Blames (faultUnless (0 ≤ n) .invalidMaxDepth) (depth n) :=
      blames_faultUnless (fun h => ⟨n.toNat, depth_eq_ok_iff.2 (by omega)⟩)
        fun h => if_pos (Int.not_le.1 h)
    rw [Option.toList_some, List.flatMap_singleton]
    exact hdepth.map some

/- A limit that is not negative can still be refused, if it is 0. -/
theorem blames_limit (limit : Int) :
    Blames (faultUnless (1 ≤ limit) .invalidMaxDepth)
      (depth limit >>= (ofMaxDepth : Nat → Except LoadError (Grammar α))) := by
  refine blames_faultUnless (fun hlimit => ?_) fun hlimit => ?_
  · have hpos : 0 < limit.toNat := by omega
    exact ⟨_, bind_eq_ok_iff.2 ⟨limit.toNat, depth_eq_ok_iff.2 (by omega),
      ofMaxDepth_eq_ok_iff.2 ⟨hpos, rfl⟩⟩⟩
  · by_cases hzero : limit = 0
    · subst hzero
      rfl
    · have hdepth : depth limit = .error .invalidMaxDepth := if_pos (by omega)
      rw [hdepth]
      rfl

section Blaming
variable [Scalar α] [Trig α] [Numeral α]

theorem blames_statement (s : Statement) :
    Blames (s.faults α) (s.build : Except LoadError (ProceduralShapes.Statement α)) := by
  obtain ⟨kind, target?, spec, count?⟩ := s
  cases target? with
  | none => exact blames_error _ _
  | some target =>
    simp only [Statement.faults, Statement.build, Statement.ofSpec, Spec.transform, specFaults]
    cases (Spec.motions spec : Except Spec.Error (List (Motion α))) with
    | ok ms => exact blames_ok _
    | error e => exact blames_error _ _

theorem blames_rule (r : Rule) : Blames (r.faults α) (r.build : Except LoadError (Variant α)) := by
  refine (blames_depth? r.maxDepth?).bind fun maxDepth? _ => ?_
  have hstatements := blames_mapM (blames_statement (α := α)) r.statements
  exact hstatements.map fun statements =>
    ({ name := r.name, weight := r.weight?.getD 1, maxDepth?, successor? := r.successor?,
       statements } : Variant α)

theorem blames_build (d : Document) :
    Blames (d.faults α) (d.build : Except LoadError (Grammar α)) := by
  obtain ⟨maxDepth?, rules⟩ := d
  cases maxDepth? with
  | none => exact blames_error _ _
  | some limit =>
    have hrules := blames_mapM (blames_rule (α := α)) rules
    have hbuild := (blames_limit (α := α) limit).bind fun g _ =>
      hrules.map fun vs => vs.foldl Grammar.add g
    rw [bind_assoc] at hbuild
    exact hbuild

end Blaming

/-! ### What is accepted -/

section Giving
variable [Scalar α] [Trig α] [Numeral α]

/- The statement that is described. -/
structure Statement.Gives (s : Statement) (t : ProceduralShapes.Statement α) : Prop where
  action_eq : s.target?.map s.kind.action = some t.action
  transform_eq : Spec.transform s.spec = .ok t.transform
  count_eq : t.count = s.count?.getD 1

/- The variant that is described, with its statements in order. -/
structure Rule.Gives (r : Rule) (v : Variant α) : Prop where
  name_eq : v.name = r.name
  weight_eq : v.weight = r.weight?.getD 1
  maxDepth?_eq : v.maxDepth?.map Nat.cast = r.maxDepth?
  successor?_eq : v.successor? = r.successor?
  statements : List.Forall₂ Statement.Gives r.statements v.statements

theorem Statement.build_eq_ok_iff {s : Statement} {t : ProceduralShapes.Statement α} :
    s.build = .ok t ↔ s.Gives t := by
  obtain ⟨kind, target?, spec, count?⟩ := s
  cases target? with
  | none => exact ⟨nofun, fun h => nomatch h.action_eq⟩
  | some target =>
    rw [Statement.build, mapError_eq_ok_iff, Statement.ofSpec, map_eq_ok_iff]
    constructor
    · rintro ⟨transform, htransform, rfl⟩
      exact ⟨rfl, htransform, rfl⟩
    · intro h
      obtain ⟨action, transform, count⟩ := t
      obtain ⟨haction, htransform, rfl⟩ := h
      cases haction
      exact ⟨transform, htransform, rfl⟩

theorem Rule.build_eq_ok_iff {r : Rule} {v : Variant α} : r.build = .ok v ↔ r.Gives v := by
  rw [Rule.build, bind_eq_ok_iff]
  constructor
  · rintro ⟨maxDepth?, hdepth, h⟩
    obtain ⟨statements, hstatements, heq⟩ := bind_eq_ok_iff.1 h
    cases heq
    exact ⟨rfl, rfl, mapM_depth_eq_ok_iff.1 hdepth, rfl,
      (mapM_eq_ok_iff.1 hstatements).imp fun _ _ => Statement.build_eq_ok_iff.1⟩
  · intro h
    obtain ⟨name, weight, maxDepth?, successor?, statements⟩ := v
    obtain ⟨rfl, rfl, hdepth, rfl, hstatements⟩ := h
    refine ⟨maxDepth?, mapM_depth_eq_ok_iff.2 hdepth, bind_eq_ok_iff.2 ⟨statements, ?_, rfl⟩⟩
    exact mapM_eq_ok_iff.2 (hstatements.imp fun _ _ => Statement.build_eq_ok_iff.2)

theorem build_eq_ok_iff {d : Document} {g : Grammar α} : d.build = .ok g ↔
    ∃ (maxDepth : Nat) (hpos : 0 < maxDepth) (vs : List (Variant α)),
      d.maxDepth? = some (maxDepth : Int) ∧ List.Forall₂ Rule.Gives d.rules vs ∧
        g = declare maxDepth hpos vs := by
  obtain ⟨limit?, rules⟩ := d
  cases limit? with
  | none => exact ⟨nofun, fun ⟨_, _, _, h, _⟩ => nomatch h⟩
  | some limit =>
    simp only [build, bind_eq_ok_iff, depth_eq_ok_iff, ofMaxDepth_eq_ok_iff, Option.some.injEq]
    constructor
    · rintro ⟨maxDepth, hlimit, _, ⟨hpos, rfl⟩, vs, hvs, heq⟩
      refine ⟨maxDepth, hpos, vs, hlimit, ?_, (Except.ok.inj heq).symm⟩
      exact (mapM_eq_ok_iff.1 hvs).imp fun _ _ => Rule.build_eq_ok_iff.1
    · rintro ⟨maxDepth, hpos, vs, hlimit, hvs, rfl⟩
      refine ⟨maxDepth, hlimit, _, ⟨hpos, rfl⟩, vs, ?_, rfl⟩
      exact mapM_eq_ok_iff.2 (hvs.imp fun _ _ => Rule.build_eq_ok_iff.2)

end Giving

end Document

/-! ### Messages -/

def Begins (c : Char) (s : String) : Prop := s.toList.head? = some c

theorem Begins.append {c : Char} {s : String} (h : Begins c s) (t : String) :
    Begins c (s ++ t) := by
  rw [Begins, String.toList_append, List.head?_append, h]
  rfl

theorem Begins.unique {c c' : Char} {s : String} (h : Begins c s) (h' : Begins c' s) : c = c' :=
  Option.some.inj (h.symm.trans h')

theorem PickError.begins_message (e : PickError) : Begins 'n' e.message ∨ Begins 'e' e.message := by
  cases e with
  | noSuchRule name suggestion =>
    have hlead : Begins 'n' "no rule named `" := rfl
    cases suggestion with
    | none => exact .inl ((hlead.append _).append _)
    | some near => exact .inl ((((hlead.append _).append _).append _).append _)
  | noSelectableVariant name =>
    have hlead : Begins 'e' "every variant of rule `" := rfl
    exact .inr ((hlead.append _).append _)

theorem begins_specMessage (e : Spec.Error) : Begins 'u' e.message ∨ Begins 't' e.message := by
  have hlead : Begins 't' "transformation `" := rfl
  cases e with
  | unknownOperator word position spec =>
    have hlead : Begins 'u' "unrecognized transformation `" := rfl
    exact .inl ((((((hlead.append _).append _).append _).append _).append _).append _)
  | missingOperand operator spec =>
    exact .inr ((((hlead.append _).append _).append _).append _)
  | invalidOperand operator value spec =>
    exact .inr ((((((hlead.append _).append _).append _).append _).append _).append _)

theorem begins_missingAttribute (element key : String) :
    Begins '<' (LoadError.missingAttribute element key).message := by
  have hlead : Begins '<' "<" := rfl
  exact (((hlead.append _).append _).append _).append _

/- The faults that lie in what is written of a document, its attributes and transforms. -/
inductive LoadError.Written : LoadError → Prop
  | missing (element key : String) : Written (.missingAttribute element key)
  | spec (e : Spec.Error) : Written (.spec e)

theorem LoadError.Written.begins_message {fault : LoadError} (h : fault.Written) :
    ∃ c ∈ ['<', 'u', 't'], Begins c fault.message := by
  cases h with
  | missing element key => exact ⟨'<', by simp, begins_missingAttribute element key⟩
  | spec e =>
    rcases begins_specMessage e with hu | ht
    · exact ⟨'u', by simp, hu⟩
    · exact ⟨'t', by simp, ht⟩

theorem message_ne_of_written (e : PickError) {fault : LoadError} (h : fault.Written) :
    e.message ≠ fault.message := by
  intro heq
  obtain ⟨c, hc, hbegins⟩ := h.begins_message
  rw [← heq] at hbegins
  rcases e.begins_message with hn | he
  · rw [← hn.unique hbegins] at hc
    exact absurd hc (by decide)
  · rw [← he.unique hbegins] at hc
    exact absurd hc (by decide)

/-! ### Loading -/

/- A document loads if and only if its limit is there and at least 1, no rule has a negative one,
every statement has its target and every spec can be read; otherwise the error is the first of its
faults. What it loads to has its limit and one variant for each rule. A run of that may only fail
on a rule that cannot be picked, so its message is that of no fault of an attribute or a
transform. -/
theorem document_loads [Scalar α] [Trig α] [Numeral α] (d : Document) :
    ((∃ g : Grammar α, d.build = .ok g) ↔
      (∃ limit, d.maxDepth? = some limit ∧ 1 ≤ limit) ∧
        ∀ r ∈ d.rules, (∀ n, r.maxDepth? = some n → 0 ≤ n) ∧
          ∀ s ∈ r.statements, s.target?.isSome ∧ Document.Readable α s.spec) ∧
    (∀ fault, (d.build : Except LoadError (Grammar α)) = .error fault ↔
      (d.faults α).head? = some fault) ∧
    ∀ g : Grammar α, d.build = .ok g →
      d.maxDepth? = some (g.maxDepth : Int) ∧
      List.Forall₂ Document.Rule.Gives d.rules g.variants.toList ∧
      ∀ (σ : Type) [RandomSource σ] (interval : Nat) (source : σ) (e : PickError),
        (g.evaluateFrom interval source).result = .error e →
          (∀ fault : LoadError, fault.Written → e.message ≠ fault.message) ∧
          (InRange σ → ∃ name ∈ g.mentioned, g.Unpickable name e) := by
  have hblames := Document.blames_build (α := α) d
  refine ⟨hblames.exists_ok_iff.trans Document.faults_eq_nil, hblames, ?_⟩
  intro g hbuild
  obtain ⟨maxDepth, hpos, vs, hlimit, hgives, rfl⟩ := Document.build_eq_ok_iff.1 hbuild
  obtain ⟨hindexed, hvariants, hdepth⟩ := indexed_declare maxDepth hpos vs
  refine ⟨?_, ?_, ?_⟩
  · rw [hlimit, hdepth]
  · rwa [hvariants]
  · intro σ _ interval source e herror
    refine ⟨fun fault => message_ne_of_written e, fun hσ => ?_⟩
    exact unpickable_of_error hσ hindexed herror

/- A beam with an arm on either side. The arms end in a hook, of which there is no rule. -/
def balance : Document :=
  { maxDepth? := some 3
    rules :=
      [{ name := entryRule, weight? := none, maxDepth? := none, successor? := none
         statements := [⟨.place, some "box", "s 4 1 1", none⟩,
           ⟨.call, some "arm", "ry 180 tx 2.5", some 2⟩] },
       { name := "arm", weight? := some 7, maxDepth? := some 1, successor? := some "hook"
         statements := [] }] }

/- The second rule has a call without target and, before it, a spec that cannot be read. -/
def crooked : Document :=
  { maxDepth? := some 3
    rules :=
      [{ name := entryRule, weight? := none, maxDepth? := some 0, successor? := none
         statements := [⟨.call, some "arm", "tx 1", none⟩] },
       { name := "arm", weight? := none, maxDepth? := none, successor? := none
         statements := [⟨.place, some "box", "tx one", none⟩, ⟨.call, none, "spin", none⟩] },
       { name := "arm", weight? := none, maxDepth? := some (-1), successor? := none
         statements := [] }] }

theorem balance_loads :
    (∃ g : Grammar Float, balance.build = .ok g ∧
      List.Forall₂ Document.Rule.Gives balance.rules g.variants.toList ∧
      ∃ e, (g.evaluateFrom 0 (ChaCha.Generator.ofSeed 7)).result = .error e ∧
        InRange ChaCha.Generator ∧ ∃ name ∈ g.mentioned, g.Unpickable name e) ∧
    (crooked.build : Except LoadError (Grammar Float)) =
      .error (.spec (.invalidOperand "tx" "one" "tx one")) := by
  have hfails : (balance.build : Except LoadError (Grammar Float)).toOption.any fun g =>
      !(g.evaluateFrom 0 (ChaCha.Generator.ofSeed 7)).result.isOk := by decide +kernel
  have hcrooked : (crooked.faults Float).head? =
      some (.spec (.invalidOperand "tx" "one" "tx one")) := by decide +kernel
  obtain ⟨-, -, hloaded⟩ := document_loads (α := Float) balance
  have hσ := ChaCha.Generator.inRange_generator
  refine ⟨?_, ((document_loads (α := Float) crooked).2.1 _).2 hcrooked⟩
  cases hbuild : (balance.build : Except LoadError (Grammar Float)) with
  | error fault =>
    rw [hbuild] at hfails
    cases hfails
  | ok g =>
    rw [hbuild] at hfails
    obtain ⟨-, hgives, hrun⟩ := hloaded g hbuild
    cases hresult : (g.evaluateFrom 0 (ChaCha.Generator.ofSeed 7)).result with
    | ok e =>
      simp only [Except.toOption, Option.any_some, hresult] at hfails
      cases hfails
    | error e =>
      obtain ⟨-, hunpickable⟩ := hrun _ 0 (ChaCha.Generator.ofSeed 7) e hresult
      exact ⟨g, rfl, hgives, e, hresult, hσ, hunpickable hσ⟩

end ProceduralShapes.Grammar
