import ProceduralShapes.Scalar
import ProceduralShapes.Text.Digits

/-!
# Decimal literals

A literal is an optional sign, then a word for infinity or for an undefined value, or digits
with an optional point and an optional power of ten. One digit before or after the point is
enough. A double is read from a literal by rounding its exact value to the nearest.
-/

namespace ProceduralShapes.Decimal

inductive Magnitude
  /-- The value `digits · 10 ^ exponent`. -/
  | finite (digits : Nat) (exponent : Int)
  | infinite
  | undefined
deriving DecidableEq, Repr

structure Literal where
  negative : Bool
  magnitude : Magnitude
deriving DecidableEq, Repr

/-- Scalars that can be written as literals. -/
class Numeral (α : Type) where
  read? : String → Option α

export Numeral (read?)

/-! ### Reading -/

/-- The power of ten behind the digits: none, or a whole number after `e`. -/
def exponent? : List Char → Option Int
  | [] => some 0
  | c :: cs => if c = 'e' ∨ c = 'E' then Text.integer? cs else none

/-- The digits after a point, and the text behind them. -/
def fraction : List Char → List Char × List Char
  | '.' :: cs => (cs.takeWhile Char.isDigit, cs.dropWhile Char.isDigit)
  | cs => ([], cs)

def finite? (cs : List Char) : Option Magnitude :=
  let whole := cs.takeWhile Char.isDigit
  let (places, tail) := fraction (cs.dropWhile Char.isDigit)
  if whole.isEmpty && places.isEmpty then none
  else (exponent? tail).map fun e =>
    .finite (Text.digitsValue (whole ++ places)) (e - places.length)

def magnitude? (cs : List Char) : Option Magnitude :=
  let word := String.ofList (cs.map Char.toLower)
  if word = "inf" ∨ word = "infinity" then some .infinite
  else if word = "nan" then some .undefined
  else finite? cs

def Literal.read? (s : String) : Option Literal :=
  let (negative, cs) := Text.splitSign s.toList
  (magnitude? cs).map (Literal.mk negative)

/-! ### Rounding to a double -/

def infinity : Float := Float.ofBits 0x7FF0000000000000

def notANumber : Float := Float.ofBits 0x7FF8000000000000

/-- The double nearest to `digits · 10 ^ exponent`. From 10³¹⁰ on it is infinite, and below
10⁻³³⁰ it is zero. -/
def nearest (digits : Nat) (exponent : Int) : Float :=
  let top := (Nat.toDigits 10 digits).length + exponent
  if digits = 0 ∨ top < -330 then 0
  else if 310 < top then infinity
  else match exponent with
    | .ofNat e => Float.ofScientific digits false e
    | .negSucc e => Float.ofScientific digits true (e + 1)

def Magnitude.toFloat : Magnitude → Float
  | .finite digits exponent => nearest digits exponent
  | .infinite => infinity
  | .undefined => notANumber

def Literal.toFloat (l : Literal) : Float :=
  if l.negative then -l.magnitude.toFloat else l.magnitude.toFloat

instance : Numeral Float := ⟨fun s => (Literal.read? s).map Literal.toFloat⟩

end ProceduralShapes.Decimal
