import ProceduralShapes.Decimal.Literal
import ProceduralShapes.Rib.Error
import ProceduralShapes.Space.Transform
import ProceduralShapes.Text.Blank

/-!
# Directives of a patch file

A line is cut into words at white space and square brackets. The first word names the
directive and the others are its arguments. Directives that have nothing to do with patches
are passed over.
-/

namespace ProceduralShapes.Rib

open Decimal (Numeral read?)

variable {α : Type}

inductive Directive (α : Type)
  /-- Saves the current transform. -/
  | begin
  /-- Returns to the transform saved last. -/
  | finish
  /-- Multiplies the current transform from the right. -/
  | move (t : Transform α)
  /-- A bicubic patch with the values that stand on its own line. -/
  | patch (values : List α)
  | other (name : String)

def isSeparator (c : Char) : Bool := Text.isBlank c || c == '[' || c == ']'

def words (line : String) : List String := Text.pieces isSeparator line

/-- The text without the quotes at its ends. -/
def unquoted (s : String) : String :=
  String.ofList ((s.toList.dropWhile (· == '"')).reverse.dropWhile (· == '"')).reverse

section Numbers
variable [Numeral α]

def number (line : Nat) (word : String) : Except Error α :=
  match read? word with
  | some x => .ok x
  | none => .error ⟨line, .invalidNumber word⟩

def numbers (line : Nat) (ws : List String) : Except Error (List α) := ws.mapM (number line)

def triple (line : Nat) (name : String) : List String → Except Error (Vec α)
  | [x, y, z] => do return ⟨← number line x, ← number line y, ← number line z⟩
  | args => .error ⟨line, .wrongArity name 3 args.length⟩

def turn (line : Nat) (name : String) : List String → Except Error (α × Vec α)
  | [degrees, x, y, z] => do
    return (← number line degrees, ⟨← number line x, ← number line y, ← number line z⟩)
  | args => .error ⟨line, .wrongArity name 4 args.length⟩

end Numbers

/-- The values of a patch. The basis comes first, and what stands second is the parameter's
name, whatever it is. -/
def patchArguments [Numeral α] (line : Nat) (args : List String) : Except Error (List α) :=
  let basis := unquoted (args.headD "")
  if basis = "bicubic" then numbers line (args.drop 2)
  else .error ⟨line, .unsupportedBasis basis⟩

def Directive.read [Scalar α] [Trig α] [SquareRoot α] [Finiteness α] [LT α] [DecidableLT α]
    [Numeral α] (line : Nat) (name : String) (args : List String) : Except Error (Directive α) :=
  match name with
  | "TransformBegin" => .ok .begin
  | "TransformEnd" => .ok .finish
  | "Translate" => (triple line name args).map fun v => .move (.translate v)
  | "Scale" => (triple line name args).map fun v => .move (.scale v)
  | "Rotate" => do
    let (degrees, axis) ← turn line name args
    match Transform.rotateAbout? axis (radians degrees) with
    | some t => return .move t
    | none => .error ⟨line, .degenerateAxis⟩
  | "Patch" => (patchArguments line args).map .patch
  | _ => .ok (.other name)

end ProceduralShapes.Rib
