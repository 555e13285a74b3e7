import ProceduralShapes.Engine.Basic

/-!
# Calls

Everything that can be asked of an engine, as one type. A sequence of calls takes an engine
from state to state, and each call is answered in the state that the calls before it left.
-/

namespace ProceduralShapes.Engine

open Decimal (Numeral)

variable {α : Type}

inductive Call
  | setWeld (weld : Bool)
  | loadGrammar (text : String)
  | evaluateLoaded (seed : UInt32)
  | evaluateText (text : String) (seed : UInt32)
  | tessellate (surface : String) (slices sectors : Nat) (topology : Topology)
  | loadPatches (text : String) (uSegments vSegments : Nat)
  | meshPatches (uSegments vSegments : Nat)
  | patchCount
deriving DecidableEq, Repr

inductive Answer (α : Type)
  | done
  | count (n : Nat)
  | evaluation (e : Grammar.Evaluation α)
  | buffers (b : Buffers α)

def Reply.map {β γ : Type} (f : β → γ) (r : Reply β) : Reply γ := ⟨r.result.map f, r.journal⟩

variable [Scalar α] [Trig α] [SquareRoot α] [Finiteness α] [LE α] [DecidableLE α]
  [LT α] [DecidableLT α] [CellIndex α] [Numeral α]

def respond (e : Engine α) : Call → Engine α × Reply (Answer α)
  | .setWeld weld => (e.setWeld weld, ⟨.ok .done, []⟩)
  | .loadGrammar text =>
    let (next, reply) := e.loadGrammar text
    (next, reply.map fun _ => .done)
  | .evaluateLoaded seed => (e, (e.evaluateLoaded seed).map .evaluation)
  | .evaluateText text seed => (e, (evaluateText text seed).map .evaluation)
  | .tessellate surface slices sectors topology =>
    (e, (e.tessellate surface slices sectors topology).map .buffers)
  | .loadPatches text u v =>
    let (next, reply) := e.loadPatches text u v
    (next, reply.map .buffers)
  | .meshPatches u v => (e, (e.meshPatches u v).map .buffers)
  | .patchCount => (e, ⟨.ok (.count e.patchCount), []⟩)

def after (e : Engine α) (calls : List Call) : Engine α :=
  calls.foldl (fun e c => (e.respond c).1) e

end ProceduralShapes.Engine
