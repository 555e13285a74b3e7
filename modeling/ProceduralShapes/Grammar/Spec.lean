import ProceduralShapes.Decimal.Literal
import ProceduralShapes.Space.Transform
import ProceduralShapes.Text.Blank

/-!
# Transform specs

A spec is a text of words: names of operators, each followed by its operands. Its transform
is the product of its motions from left to right, so the last motion is the first to act on
a point. Angles are given in degrees.
-/

namespace ProceduralShapes

open Decimal (Numeral read?)

variable {α : Type}

/-- One step of a spec. -/
inductive Motion (α : Type)
  | translate (offset : Vec α)
  | rotateX (degrees : α)
  | rotateY (degrees : α)
  | rotateZ (degrees : α)
  | scale (factors : Vec α)
deriving DecidableEq

def Motion.transform [Scalar α] [Trig α] : Motion α → Transform α
  | .translate offset => .translate offset
  | .rotateX degrees => .rotateX (radians degrees)
  | .rotateY degrees => .rotateY (radians degrees)
  | .rotateZ degrees => .rotateZ (radians degrees)
  | .scale factors => .scale factors

namespace Spec

inductive Operator
  | tx | ty | tz | t | rx | ry | rz | sx | sy | sz | sa | s
deriving DecidableEq, Repr

namespace Operator

def ofWord? : String → Option Operator
  | "tx" => some .tx
  | "ty" => some .ty
  | "tz" => some .tz
  | "t" => some .t
  | "rx" => some .rx
  | "ry" => some .ry
  | "rz" => some .rz
  | "sx" => some .sx
  | "sy" => some .sy
  | "sz" => some .sz
  | "sa" => some .sa
  | "s" => some .s
  | _ => none

def arity : Operator → Nat
  | .t | .s => 3
  | _ => 1

/-- The motion of an operator with its operands, which fill the axes from the first on. -/
def motion [Scalar α] (op : Operator) (v : Vec α) : Motion α :=
  match op with
  | .tx => .translate ⟨v.x, 0, 0⟩
  | .ty => .translate ⟨0, v.x, 0⟩
  | .tz => .translate ⟨0, 0, v.x⟩
  | .t => .translate v
  | .rx => .rotateX v.x
  | .ry => .rotateY v.x
  | .rz => .rotateZ v.x
  | .sx => .scale ⟨v.x, 1, 1⟩
  | .sy => .scale ⟨1, v.x, 1⟩
  | .sz => .scale ⟨1, 1, v.x⟩
  | .sa => .scale (Vec.splat v.x)
  | .s => .scale v

end Operator

/-! ### Errors -/

inductive Error
  /-- The word at this place names no operator. -/
  | unknownOperator (word : String) (position : Nat) (spec : String)
  | missingOperand (operator : String) (spec : String)
  | invalidOperand (operator : String) (value : String) (spec : String)
deriving DecidableEq, Repr

def Error.message : Error → String
  | .unknownOperator word position spec =>
    s!"unrecognized transformation `{word}` at position {position} in `{spec}`"
  | .missingOperand operator spec => s!"transformation `{operator}` is missing an operand in `{spec}`"
  | .invalidOperand operator value spec =>
    s!"transformation `{operator}` has a non-numeric operand `{value}` in `{spec}`"

/-! ### Reading -/

section Reading
variable [Scalar α] [Numeral α]

/-- The values of the next `k` words, the first fault ending the search: a word that is no
number, given, or no word at all. -/
def operands : Nat → List String → Except (Option String) (List α)
  | 0, _ => .ok []
  | _ + 1, [] => .error none
  | k + 1, word :: rest =>
    match read? word with
    | none => .error (some word)
    | some x => (operands k rest).map (x :: ·)

def axes (xs : List α) : Vec α := ⟨xs.getD 0 0, xs.getD 1 0, xs.getD 2 0⟩

/-- The motions of the words of a spec from the word at `position` on. -/
def motionsFrom (spec : String) (position : Nat) (ws : List String) :
    Except Error (List (Motion α)) :=
  match ws with
  | [] => .ok []
  | word :: rest =>
    match Operator.ofWord? word with
    | none => .error (.unknownOperator word position spec)
    | some op =>
      match operands op.arity rest with
      | .error none => .error (.missingOperand word spec)
      | .error (some value) => .error (.invalidOperand word value spec)
      | .ok xs =>
        (motionsFrom spec (position + 1 + op.arity) (rest.drop op.arity)).map (op.motion (axes xs) :: ·)
termination_by ws.length
decreasing_by simp only [List.length_drop, List.length_cons]; omega

def motions (spec : String) : Except Error (List (Motion α)) :=
  motionsFrom spec 0 (Text.words spec)

end Reading

def product [Scalar α] [Trig α] (ms : List (Motion α)) : Transform α :=
  ms.foldl (fun t m => t * m.transform) .identity

/-- The transform that a spec denotes. The empty spec denotes the identity. -/
def transform [Scalar α] [Trig α] [Numeral α] (spec : String) : Except Error (Transform α) :=
  (motions spec).map product

end Spec

end ProceduralShapes
