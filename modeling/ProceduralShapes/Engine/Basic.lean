import ProceduralShapes.Grammar.Library
import ProceduralShapes.Grammar.Reader
import ProceduralShapes.Grammar.Evaluation
import ProceduralShapes.Mesh.Weld
import ProceduralShapes.Rib.Reader
import ProceduralShapes.Surface.Tessellation
import ProceduralShapes.Text.Blank

/-!
# The engine

An engine keeps a grammar, the patches of a file, and whether the meshes it hands out are
welded. An operation answers with a result or an error and with what it reported on the way.
An operation that refuses its input leaves the engine as it was.
-/

namespace ProceduralShapes

open Decimal (Numeral)

structure Engine (α : Type) where
  grammar? : Option (Grammar α) := none
  patches : Array (Patch α) := #[]
  weld : Bool := false

namespace Engine

variable {α : Type}

inductive Error
  | noGrammar
  | unknownSurface (name : String)
  | load (e : Grammar.LoadError)
  | pick (e : Grammar.PickError)
  | patchFile (e : Rib.Error)
  | fault (f : Fault)
deriving DecidableEq, Repr

def Error.message : Error → String
  | .noGrammar => "no grammar has been loaded"
  | .unknownSurface name => s!"unknown surface `{name}`"
  | .load e => e.message
  | .pick e => e.message
  | .patchFile e => e.message
  | .fault _ => "the mesh does not fit in its buffers"

/-- The answer to an operation and what was reported on the way. -/
structure Reply (β : Type) where
  result : Except Error β
  journal : List Record := []

namespace Reply

def failed {β : Type} (e : Error) : Reply β := ⟨.error e, []⟩

/-- The reply with records put in front. -/
def after {β : Type} (records : List Record) (r : Reply β) : Reply β :=
  ⟨r.result, records ++ r.journal⟩

end Reply

/-! ### Mesh buffers -/

/-- A mesh as it is handed out: coordinates and corner numbers in flat buffers, by threes. -/
structure Buffers (α : Type) where
  positions : Array α
  corners : Array UInt32
  vertexCount : Nat
  triangleCount : Nat

def Buffers.ofMesh (m : Mesh α) : Buffers α :=
  ⟨m.flatPositions, m.flatCorners, m.vertexCount, m.triangleCount⟩

def setWeld (e : Engine α) (weld : Bool) : Engine α := { e with weld }

def patchCount (e : Engine α) : Nat := e.patches.size

variable [Scalar α]

/-! ### Grammars -/

section Grammars

def evaluate (g : Grammar α) (seed : UInt32) : Reply (Grammar.Evaluation α) :=
  let options : Grammar.Options := { seed := seed.toUInt64 }
  let outcome := g.evaluate options
  ⟨outcome.result.mapError .pick, outcome.journal options.seed⟩

def evaluateLoaded (e : Engine α) (seed : UInt32) : Reply (Grammar.Evaluation α) :=
  match e.grammar? with
  | none => .failed .noGrammar
  | some g => evaluate g seed

variable [Trig α] [Numeral α]

/-- Keeps the grammar of a document, or of the built-in document of that name. -/
def loadGrammar (e : Engine α) (text : String) : Engine α × Reply Unit :=
  match Grammar.ofText ((Grammar.Library.find? (Text.trimmed text)).getD text) with
  | .ok g => ({ e with grammar? := some g }, ⟨.ok (), g.journal⟩)
  | .error err => (e, .failed (.load err))

def evaluateText (text : String) (seed : UInt32) : Reply (Grammar.Evaluation α) :=
  match Grammar.ofText text with
  | .ok g => (evaluate g seed).after g.journal
  | .error err => .failed (.load err)

end Grammars

/-! ### Meshes -/

section Meshes
variable [LE α] [DecidableLE α] [LT α] [DecidableLT α] [Finiteness α] [CellIndex α]

/-- The mesh as this engine hands it out. -/
def finish (e : Engine α) (m : Mesh α) : Except Fault (Mesh α) × List Record :=
  if e.weld then
    match m.weld .weld with
    | .ok (welded, merged) => (.ok welded, [.debug s!"welded {merged} vertices"])
    | .error f => (.error f, [])
  else (.ok m, [])

def handOut (e : Engine α) (m : Except Fault (Mesh α)) : Reply (Buffers α) :=
  match m with
  | .error f => .failed (.fault f)
  | .ok m =>
    let (finished, journal) := e.finish m
    ⟨(finished.mapError .fault).map Buffers.ofMesh, journal⟩

def meshPatches (e : Engine α) (uSegments vSegments : Nat) : Reply (Buffers α) :=
  e.handOut (Mesh.unitGrids uSegments vSegments (e.patches.toList.map Patch.pointAt))

variable [Trig α]

def tessellate (e : Engine α) (name : String) (slices sectors : Nat) (topology : Topology) :
    Reply (Buffers α) :=
  match Surface.named? name with
  | none => .failed (.unknownSurface name)
  | some surface => e.handOut (Mesh.tessellate slices sectors surface.position topology)

/-- Keeps the patches of a file and hands out their mesh. -/
def loadPatches [SquareRoot α] [Numeral α] (e : Engine α) (text : String)
    (uSegments vSegments : Nat) : Engine α × Reply (Buffers α) :=
  let reading : Rib.Reading α := Rib.read text
  match reading.patches with
  | .error err => (e, ⟨.error (.patchFile err), reading.journal⟩)
  | .ok patches =>
    let e := { e with patches }
    (e, (e.meshPatches uSegments vSegments).after reading.journal)

end Meshes

end Engine

end ProceduralShapes
