import ProceduralShapes.Cli.Perform
import ProceduralShapes.Cli.Session
import ProceduralShapes.Proofs.Grammar.Loading
import ProceduralShapes.Proofs.Grammar.Shapes

/-!
# The built-in grammars

The built-in documents load, their grammars are closed, and all the shapes that they place are in
the catalogue. So whatever is drawn, their evaluations come to an end and their placements can be
joined to a mesh; nothing can go wrong but that the mesh is too large.
-/

namespace ProceduralShapes

open Decimal (Numeral)
open Fallible

variable {α σ : Type}

/-! ### Loading -/

namespace Grammar

theorem indexed_of_ofText [Scalar α] [Trig α] [Numeral α] {text : String} {g : Grammar α}
    (h : ofText text = .ok g) : g.Indexed := by
  obtain ⟨d, -, hbuild⟩ := bind_eq_ok_iff.1 h
  obtain ⟨maxDepth, hpos, vs, -, -, rfl⟩ := Document.build_eq_ok_iff.1 hbuild
  exact (indexed_declare maxDepth hpos vs).1

/- Reading a document from its characters. A document that is a literal is checked in this form,
since the literal is bytes that would have to be decoded first. -/
def ofCharacters [Scalar α] [Trig α] [Numeral α] (cs : List Char) :
    Except LoadError (Grammar α) := do
  let node ← required (match cs with
    | '\uFEFF' :: cs => Markup.element? cs
    | cs => Markup.element? cs)
  (← Document.ofNode node).build

theorem ofText_ofList [Scalar α] [Trig α] [Numeral α] (cs : List Char) :
    (ofText (String.ofList cs) : Except LoadError (Grammar α)) = ofCharacters cs := by
  rw [ofText, Document.ofText, Markup.document?, String.toList_ofList]
  exact bind_assoc _ _ _

/- The document loads, its grammar is closed, and it places no shapes but these. -/
def Settled (shapes : List String) (loaded : Except LoadError (Grammar α)) : Prop :=
  ∃ g, loaded = .ok g ∧ g.Closed ∧ ∀ shape ∈ g.shapes, shape ∈ shapes

theorem settled_ok_iff {shapes : List String} {g : Grammar α} :
    Settled shapes (.ok g) ↔ g.Closed ∧ ∀ shape ∈ g.shapes, shape ∈ shapes := by
  constructor
  · intro hsettled
    obtain ⟨g', hg, hchecked⟩ := hsettled
    cases hg
    exact hchecked
  · intro hchecked
    exact ⟨g, rfl, hchecked⟩

instance (shapes : List String) (loaded : Except LoadError (Grammar α)) :
    Decidable (Settled shapes loaded) :=
  match loaded with
  | .ok _ => decidable_of_iff' _ settled_ok_iff
  | .error _ => .isFalse fun ⟨_, h, _⟩ => nomatch h

end Grammar

/-! ### The catalogue -/

namespace Scenario

def shapeNames : List String := ["box", "boxy", "tubey"]

theorem exists_catalogue [Scalar α] [Trig α] :
    ∃ shapes : Catalogue α, catalogue = .ok shapes ∧
      ∀ name ∈ shapeNames, ∃ mesh, shapes.get? name = some mesh := by
  refine ⟨_, rfl, ?_⟩
  intro name hname
  rw [← Option.isSome_iff_exists, Std.TreeMap.get?_eq_getElem?,
    Std.TreeMap.isSome_getElem?_eq_contains, Std.TreeMap.contains_ofList]
  exact List.contains_iff_mem.2 hname

end Scenario

namespace Grammar

set_option maxRecDepth 8192 in
theorem settled_tree :
    Settled Scenario.shapeNames (ofText Library.tree : Except LoadError (Grammar Float)) := by
  have htext : Library.tree = String.ofList _ := rfl
  rw [htext, ofText_ofList]
  decide +kernel

set_option maxRecDepth 8192 in
theorem settled_octopod :
    Settled Scenario.shapeNames (ofText Library.octopod : Except LoadError (Grammar Float)) := by
  have htext : Library.octopod = String.ofList _ := rfl
  rw [htext, ofText_ofList]
  decide +kernel

set_option maxRecDepth 8192 in
theorem settled_nouveau :
    Settled Scenario.shapeNames (ofText Library.nouveau : Except LoadError (Grammar Float)) := by
  have htext : Library.nouveau = String.ofList _ := rfl
  rw [htext, ofText_ofList]
  decide +kernel

theorem settled_library : ∀ entry ∈ Library.all,
    Settled Scenario.shapeNames (ofText entry.document : Except LoadError (Grammar Float)) := by
  intro entry hentry
  simp only [Library.all, List.mem_cons, List.not_mem_nil, or_false] at hentry
  rcases hentry with rfl | rfl | rfl
  · exact settled_tree
  · exact settled_octopod
  · exact settled_nouveau

end Grammar

/-! ### Placing the shapes -/

/- Placements of known shapes can only be too large for one mesh. -/
theorem failsOnly_place [Scalar α] {shapes : Catalogue α} {ps : List (Placement α)} {m : Mesh α}
    (h : ∀ p ∈ ps, ∃ mesh, shapes.get? p.shape = some mesh) :
    FailsOnly (fun e => ∃ f, e = .fault f) (ps.foldlM (Scene.add Mesh.append shapes) m) := by
  induction ps generalizing m with
  | nil => exact failsOnly_ok m
  | cons p rest ih =>
    rw [List.foldlM_cons]
    refine FailsOnly.bind ?_ fun joined => ih fun q hq => h q (List.mem_cons_of_mem _ hq)
    obtain ⟨mesh, hmesh⟩ := h p List.mem_cons_self
    rw [Scene.add, hmesh]
    dsimp only
    cases m.append (mesh.transformed p.transform) with
    | ok joined => exact failsOnly_ok joined
    | error f => exact failsOnly_error ⟨f, rfl⟩

theorem exists_fault_of_failsOnly {β : Type} {x : Except PlacementError β}
    (h : FailsOnly (fun e => ∃ f, e = .fault f) x) :
    ∃ r : Except Fault β, x = r.mapError .fault := by
  cases x with
  | ok b => exact ⟨.ok b, rfl⟩
  | error e =>
    obtain ⟨f, rfl⟩ := h e rfl
    exact ⟨.error f, rfl⟩

theorem exists_placed {e : Grammar.Evaluation Float}
    (h : ∀ p ∈ e.placed, p.shape ∈ Scenario.shapeNames) :
    ∃ r : Except Fault (Mesh Float), Scenario.placed e = r.mapError .fault := by
  obtain ⟨shapes, hshapes, hknown⟩ := Scenario.exists_catalogue (α := Float)
  have hplaced : Scenario.placed e = Scene.place shapes e.placed.toList := by
    rw [Scenario.placed, hshapes]
    rfl
  rw [hplaced]
  refine exists_fault_of_failsOnly (failsOnly_place fun p hp => hknown _ (h p ?_))
  exact Array.mem_toList_iff.1 hp

/-! ### The command that grows a grammar -/

namespace Cli

section Host
variable {m : Type → Type} [Monad m] {ε ε' β : Type}

theorem attempt_ok (failure : ε → Failure) (b : β) :
    (attempt failure (.ok b) : ExceptT Failure m β) = pure b := rfl

theorem attempt_mapError (failure : ε' → Failure) (f : ε → ε') (r : Except ε β) :
    (attempt failure (r.mapError f) : ExceptT Failure m β) =
      attempt (fun e => failure (f e)) r := by
  cases r with
  | ok b => rfl
  | error e => rfl

theorem grow_eq [LawfulMonad m] [Host m] {entry : Grammar.Library.Entry} {seed : UInt64}
    {g : Grammar Float} {e : Grammar.Evaluation Float}
    (hload : Grammar.ofText entry.document = .ok g)
    (hresult : (g.evaluate { seed }).result = .ok e) :
    (grow entry seed : ExceptT Failure m (Mesh Float)) = (do
      report (String.ofList (List.replicate (g.evaluate { seed }).notified.size '.'))
      report s!"\n{entry.name}: {e.summary}\n"
      attempt (.placement entry.name) (Scenario.placed e)) := by
  unfold grow
  rw [hload, attempt_ok, pure_bind]
  dsimp only
  rw [hresult, attempt_ok, pure_bind]

end Host

end Cli

/-! ### The library -/

/- The built-in grammars load, and whatever is drawn they are evaluated to their end and place only
shapes of the catalogue. On any host, growing one reports twice and then gives the mesh of its
shapes, unless that does not fit its buffers. -/
theorem library_evaluates :
    ∃ shapes : Catalogue Float, Scenario.catalogue = .ok shapes ∧
      ∀ entry ∈ Grammar.Library.all, ∃ g : Grammar Float,
        Grammar.ofText entry.document = .ok g ∧
        (∀ (σ : Type) [RandomSource σ], InRange σ → ∀ (interval : Nat) (source : σ),
          ∃ e, (g.evaluateFrom interval source).result = .ok e ∧
            ∀ p ∈ e.placed, ∃ mesh, shapes.get? p.shape = some mesh) ∧
        ∀ seed : UInt64, ∃ (dots line : String) (r : Except Fault (Mesh Float)),
          ∀ (m : Type → Type) [Monad m] [LawfulMonad m] [Cli.Host m],
            (Cli.grow entry seed : ExceptT Cli.Failure m (Mesh Float)) = (do
              Cli.report dots
              Cli.report line
              Cli.attempt (fun f => .placement entry.name (.fault f)) r) := by
  obtain ⟨shapes, hshapes, hknown⟩ := Scenario.exists_catalogue (α := Float)
  refine ⟨shapes, hshapes, ?_⟩
  intro entry hentry
  obtain ⟨g, hload, hclosed, hnames⟩ := Grammar.settled_library entry hentry
  have hindexed := Grammar.indexed_of_ofText hload
  refine ⟨g, hload, ?_, ?_⟩
  · intro σ _ hσ interval source
    obtain ⟨e, he⟩ := Grammar.evaluates_of_closed hσ hindexed hclosed interval source
    refine ⟨e, he, ?_⟩
    intro p hp
    exact hknown _ (hnames _ (Grammar.shape_mem_of_evaluates he p hp))
  · intro seed
    obtain ⟨e, he⟩ := Grammar.evaluates_of_closed ChaCha.Generator.inRange_generator hindexed
      hclosed Grammar.defaultInterval (ChaCha.Generator.ofSeed seed)
    obtain ⟨r, hr⟩ := exists_placed fun p hp =>
      hnames _ (Grammar.shape_mem_of_evaluates he p hp)
    refine ⟨String.ofList (List.replicate (g.evaluate { seed }).notified.size '.'),
      s!"\n{entry.name}: {e.summary}\n", r, ?_⟩
    intro m _ _ _
    rw [Cli.grow_eq hload he, hr, Cli.attempt_mapError]

theorem tree_evaluates :
    ∃ entry ∈ Grammar.Library.all, entry.name = "tree" ∧ ∃ g : Grammar Float,
      Grammar.ofText entry.document = .ok g ∧ InRange ChaCha.Generator ∧
      (∃ e, (g.evaluateFrom 0 (ChaCha.Generator.ofSeed 29)).result = .ok e) ∧
      ∃ (dots line : String) (r : Except Fault (Mesh Float)),
        (Cli.grow entry 29 : ExceptT Cli.Failure (StateM Cli.Session) (Mesh Float)) = (do
          Cli.report dots
          Cli.report line
          Cli.attempt (fun f => .placement entry.name (.fault f)) r) := by
  obtain ⟨shapes, -, hlibrary⟩ := library_evaluates
  have htree : ⟨"tree", Grammar.Library.tree⟩ ∈ Grammar.Library.all := List.mem_cons_self
  have hσ := ChaCha.Generator.inRange_generator
  obtain ⟨g, hload, hevaluates, hgrows⟩ := hlibrary _ htree
  obtain ⟨e, he, -⟩ := hevaluates _ hσ 0 (ChaCha.Generator.ofSeed 29)
  obtain ⟨dots, line, r, hgrow⟩ := hgrows 29
  exact ⟨_, htree, rfl, g, hload, hσ, ⟨e, he⟩, dots, line, r, hgrow (StateM Cli.Session)⟩

end ProceduralShapes
