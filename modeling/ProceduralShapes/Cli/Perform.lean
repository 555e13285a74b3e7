import ProceduralShapes.Cli.Command
import ProceduralShapes.Cli.Host
import ProceduralShapes.Grammar.Reader
import ProceduralShapes.Mesh.Weld
import ProceduralShapes.Rib.Reader

/-!
# Carrying out a command

A command makes meshes, welds them if asked to, keeps them in files if a place for them is
named, and reports every step. It stops at the first failure; files written before it stay.
-/

namespace ProceduralShapes.Cli

variable {m : Type → Type} [Monad m] [Host m]

/-- A result, or the failure that its error amounts to. -/
def attempt {ε β : Type} (failure : ε → Failure) (r : Except ε β) : ExceptT Failure m β :=
  ExceptT.mk (pure (r.mapError failure))

def fail {β : Type} (f : Failure) : ExceptT Failure m β := ExceptT.mk (pure (.error f))

/-- What the host grants, or the failure that its refusal amounts to. -/
def request {β : Type} (failure : String → Failure) (answer : m (Except String β)) :
    ExceptT Failure m β := do attempt failure (← ExceptT.lift answer)

def print (text : String) : ExceptT Failure m Unit := ExceptT.lift (Host.print text)

def report (text : String) : ExceptT Failure m Unit := ExceptT.lift (Host.report text)

/-! ### Keeping a mesh -/

def makeParent (path : String) : ExceptT Failure m Unit :=
  match Path.parent? path with
  | none => pure ()
  | some parent => request (.directory parent) (Host.makeDirectory parent)

/-- Writes a document to a file, in a directory that is made for it. A mesh that is not valid is
not written, and neither is one whose place is taken, unless it may be overwritten. -/
def store (path : String) (document : Obj Float) (overwrite : Bool) : ExceptT Failure m Unit := do
  attempt .invalidMesh document.mesh.validate
  let taken ← ExceptT.lift (Host.occupied path)
  if taken && !overwrite then fail (.occupied path)
  else
    makeParent path
    let file ← request (.creation path) (Host.create path)
    request .writing (Host.write file document)
    request (.flushing path) (Host.flush file)

def welded (o : Options) (mesh : Mesh Float) : ExceptT Failure m (Mesh Float) :=
  if o.weld then do
    let (mesh, merged) ← attempt .fault (mesh.weld .weld)
    report s!"welded {merged} vertices\n"
    return mesh
  else
    return mesh

/-- Finishes a mesh, keeps it if there is a place for it, and reports its size. -/
def deliver (o : Options) (name : String) (mesh : Mesh Float) : ExceptT Failure m Unit := do
  let mesh ← welded o mesh
  match o.output? name with
  | none => pure ()
  | some path =>
    store path ⟨name, mesh⟩ o.overwrite
    report s!"wrote {path}\n"
  report s!"{name}: vertices={mesh.vertexCount} triangles={mesh.triangleCount}\n"

/-! ### Scenarios -/

/-- The mesh of a grammar's shapes. A dot is reported for every notice of the evaluation. -/
def grow (e : Grammar.Library.Entry) (seed : UInt64) : ExceptT Failure m (Mesh Float) := do
  let grammar ← attempt (.load e.name) (Grammar.ofText e.document)
  let outcome := grammar.evaluate { seed }
  report (String.ofList (List.replicate outcome.notified.size '.'))
  let evaluation ← attempt (.pick e.name) outcome.result
  report s!"\n{e.name}: {evaluation.summary}\n"
  attempt (.placement e.name) (Scenario.placed evaluation)

def scenarioMesh (o : Options) : Scenario → ExceptT Failure m (Mesh Float)
  | .surface s => attempt .fault (Mesh.tessellate o.slices o.sectors s.position s.topology)
  | .grammar e => grow e o.seed

def runScenario (o : Options) (s : Scenario) : ExceptT Failure m Unit := do
  deliver o s.name (← scenarioMesh o s)

def allScenarios : String := "all"

def run (name : String) (o : Options) : ExceptT Failure m Unit := do
  match o.outDir? with
  | none => pure ()
  | some dir => request .outDirectory (Host.makeDirectory dir)
  if name = allScenarios then
    if o.outDir?.isSome then Scenario.all.forM (runScenario o) else fail .missingDirectory
  else
    match Scenario.named? name with
    | some s => runScenario o s
    | none => fail (.unknownScenario name)

/-! ### Patch files -/

/-- The name of the mesh of a patch file: that of the file without its extension. -/
def patchMeshName (path : String) : String := ((Path.name? path).map Path.stem).getD "patches"

def meshPatches (path : String) (o : Options) : ExceptT Failure m Unit := do
  match ← ExceptT.lift (Host.contents? path) with
  | none => fail (.unreadable path)
  | some text =>
    let patches ← attempt (.patchFile path) (Rib.read text : Rib.Reading Float).patches
    report s!"{path}: {patches.size} patches\n"
    let mesh ← attempt .fault
      (Mesh.unitGrids o.slices o.sectors (patches.toList.map Patch.pointAt))
    deliver o (patchMeshName path) mesh

/-! ### Command lines -/

def perform : Command → ExceptT Failure m Unit
  | .help => print (usage ++ "\n")
  | .list => print (String.join (Scenario.all.map fun s => s.name ++ "\n"))
  | .run scenario o => run scenario o
  | .patches path o => meshPatches path o

/-- Carries out a command line and gives the exit code: one after a failure. -/
def execute (args : List String) : m UInt32 := do
  let work : ExceptT Failure m Unit := do perform (← attempt id (Command.read args))
  match ← work.run with
  | .ok _ => return 0
  | .error f =>
    Host.report s!"procgeo_cli error: {f.message}\n"
    return 1

end ProceduralShapes.Cli
