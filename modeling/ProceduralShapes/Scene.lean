import ProceduralShapes.Journal
import ProceduralShapes.Mesh.Basic
import Std.Data.TreeMap

/-!
# Scenes

A placement puts a named shape somewhere by a transform. A catalogue holds the mesh of every
shape, and placing a list of shapes joins the moved meshes in order. What becomes of corners
beyond 32 bits is left to how two meshes are joined.
-/

namespace ProceduralShapes

variable {α : Type}

structure Placement (α : Type) where
  shape : String
  transform : Transform α
deriving BEq

/-- The meshes of shapes by name. -/
abbrev Catalogue (α : Type) := Std.TreeMap String (Mesh α)

inductive PlacementError
  | unknownShape (name : String)
  | fault (f : Fault)
deriving DecidableEq, Repr

def PlacementError.message : PlacementError → String
  | .unknownShape name => s!"no primitive registered for shape `{name}`"
  | .fault _ => "the placed meshes do not fit in one mesh"

namespace Scene

variable [Scalar α]

/-- How two meshes are joined. -/
abbrev Joining (α : Type) := Mesh α → Mesh α → Except Fault (Mesh α)

/-- Joins the mesh of one placement to those before it. -/
def add (join : Joining α) (shapes : Catalogue α) (m : Mesh α) (p : Placement α) :
    Except PlacementError (Mesh α) :=
  match shapes.get? p.shape with
  | none => .error (.unknownShape p.shape)
  | some shape => (join m (shape.transformed p.transform)).mapError .fault

def placeBy (join : Joining α) (shapes : Catalogue α) (ps : List (Placement α)) :
    Except PlacementError (Mesh α) := ps.foldlM (add join shapes) .empty

/-- Placing with checked arithmetic. -/
def place (shapes : Catalogue α) (ps : List (Placement α)) : Except PlacementError (Mesh α) :=
  placeBy Mesh.append shapes ps

/-- Placing with corners counted round. -/
def placeRound (shapes : Catalogue α) (ps : List (Placement α)) :
    Except PlacementError (Mesh α) := placeBy (fun m n => .ok (m.joined n)) shapes ps

def journal (count : Nat) (m : Mesh α) : List Record :=
  [.debug s!"placed {count} instances: {m.vertexCount} vertices, {m.triangleCount} triangles"]

end Scene

end ProceduralShapes
