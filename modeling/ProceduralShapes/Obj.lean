import ProceduralShapes.Mesh.Basic

/-!
# OBJ documents

An OBJ document names an object and lists its vertices and then its faces, each on a line of
its own. Faces count the vertices from one.
-/

namespace ProceduralShapes

variable {α : Type}

structure Obj (α : Type) where
  name : String
  mesh : Mesh α

namespace Obj

inductive Line (α : Type)
  | comment (text : String)
  | object (name : String)
  | vertex (p : Point α)
  | face (a b c : Nat)

/-- The text of a line without its end; `write` gives the text of a number. -/
def Line.render (write : α → String) : Line α → String
  | .comment text => "# " ++ text
  | .object name => "o " ++ name
  | .vertex p => "v " ++ write p.x ++ " " ++ write p.y ++ " " ++ write p.z
  | .face a b c => "f " ++ toString a ++ " " ++ toString b ++ " " ++ toString c

/-- What wrote the document. -/
def producer : String := "procgeo-engine procgeo_cli"

def Line.ofFace (f : Face) : Line α := .face (f.a.toNat + 1) (f.b.toNat + 1) (f.c.toNat + 1)

def lines (d : Obj α) : List (Line α) :=
  .comment producer :: .object d.name ::
    (d.mesh.positions.toList.map Line.vertex ++ d.mesh.faces.toList.map Line.ofFace)

def text (write : α → String) (d : Obj α) : String :=
  String.join (d.lines.map fun l => l.render write ++ "\n")

end Obj

end ProceduralShapes
