import ProceduralShapes.Grammar.Evaluation
import ProceduralShapes.Grammar.Library
import ProceduralShapes.Mesh.Primitive
import ProceduralShapes.Surface.Tessellation

/-!
# Scenarios

A scenario is something built in that gives one mesh: a surface, or a grammar whose shapes
are placed.
-/

namespace ProceduralShapes

inductive Scenario
  | surface (s : Surface)
  | grammar (e : Grammar.Library.Entry)
deriving DecidableEq, Repr

namespace Scenario

/-- The surfaces, then the grammars. -/
def all : List Scenario := Surface.all.map .surface ++ Grammar.Library.all.map .grammar

def name : Scenario → String
  | .surface s => s.name
  | .grammar e => e.name

def named? (s : String) : Option Scenario := all.find? (·.name == s)

variable {α : Type} [Scalar α] [Trig α]

/-- The corners of a ring of the cylinder that stands for a tube. -/
def tubeSegments : Nat := 12

/-- The shapes that the grammars place. -/
def catalogue : Except Fault (Catalogue α) :=
  (Mesh.unitCylinder tubeSegments).map fun tube =>
    .ofList [("box", Mesh.unitBox), ("boxy", Mesh.unitBox), ("tubey", tube)]

def placed (e : Grammar.Evaluation α) : Except PlacementError (Mesh α) := do
  Scene.place (← catalogue.mapError .fault) e.placed.toList

end Scenario

end ProceduralShapes
