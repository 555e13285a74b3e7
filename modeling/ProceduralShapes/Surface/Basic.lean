import ProceduralShapes.Space.Vec
import ProceduralShapes.Text.Case

/-!
# Parametric surfaces

The built-in surfaces, as positions over two angles: `theta` runs over half a turn and `phi`
over a full one. A surface that is periodic in `theta` doubles it, so that half a turn of
`theta` covers the whole loop.
-/

namespace ProceduralShapes

/-- A point for every pair of parameters. -/
abbrev Position (α : Type) := α → α → Point α

inductive Surface
  | torus
  | sphere
  | klein
  | mobius
deriving DecidableEq, Repr

namespace Surface

variable {α : Type} [Scalar α] [Trig α]

/-- The ring around the z axis with a tube of radius `minor` around a circle of radius `major`. -/
def torusPosition (major minor : α) : Position α := fun theta phi =>
  let u := theta * (2 : Nat)
  let ring := major + minor * cos phi
  ⟨ring * cos u, ring * sin u, minor * sin phi⟩

/-- The unit sphere with its poles on the y axis. -/
def spherePosition : Position α := fun theta phi =>
  ⟨sin theta * cos phi, cos theta, -sin theta * sin phi⟩

/-- The bottle immersion of the Klein bottle: the handle over the first half of the loop, the
body over the second. -/
def kleinPosition [LT α] [DecidableLT α] : Position α := fun theta phi =>
  let u := theta * (2 : Nat)
  let r := (2 : Nat) * (1 - cos u / (2 : Nat))
  let y := -r * sin phi
  if u < pi then
    ⟨(3 : Nat) * cos u * (1 + sin u) + r * cos u * cos phi, y,
      -((8 : Nat) : α) * sin u - r * sin u * cos phi⟩
  else
    ⟨(3 : Nat) * cos u * (1 + sin u) + r * cos (phi + pi), y, -((8 : Nat) : α) * sin u⟩

/-- The band with one half twist and an elliptic cross-section. -/
def mobiusPosition : Position α := fun theta phi =>
  let major : α := (5 : Nat) / (4 : Nat)
  let a : α := 1 / (8 : Nat)
  let b : α := 1 / (2 : Nat)
  let u := theta * (2 : Nat)
  let half := u / (2 : Nat)
  let x := a * cos phi * cos half - b * sin phi * sin half
  let z := a * cos phi * sin half + b * sin phi * cos half
  ⟨(major + x) * cos u, (major + x) * sin u, z⟩

/-- The position function of a surface. The torus has radii 8 and 2. -/
def position [LT α] [DecidableLT α] : Surface → Position α
  | .torus => torusPosition (8 : Nat) (2 : Nat)
  | .sphere => spherePosition
  | .klein => kleinPosition
  | .mobius => mobiusPosition

/-! ### Names -/

def all : List Surface := [.torus, .sphere, .klein, .mobius]

def name : Surface → String
  | .torus => "torus"
  | .sphere => "sphere"
  | .klein => "klein"
  | .mobius => "mobius"

def named? (s : String) : Option Surface := all.find? (·.name == Text.lowered s)

/-- The surfaces whose last row of samples continues into the first. -/
def isDoublyPeriodic : Surface → Bool
  | .torus | .klein | .mobius => true
  | .sphere => false

end Surface

end ProceduralShapes
