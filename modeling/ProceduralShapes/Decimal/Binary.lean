/-!
# The value of a double

A finite double is a sign and a product of a whole number with a power of two.
-/

namespace ProceduralShapes.Decimal

/-- The absolute value `mantissa · 2 ^ exponent`, and the sign. -/
structure Binary where
  negative : Bool
  mantissa : Nat
  exponent : Int
deriving DecidableEq, Repr

namespace Binary

/-- The number of values that the fraction field of a double takes: 52 bits. -/
def fractionSize : Nat := 4503599627370496

/-- The number of values that the exponent field takes: 11 bits. -/
def fieldSize : Nat := 2048

def leastExponent : Int := -1074

/-- The sign, the exponent field and the fraction field, read as a finite double. -/
def ofFloat (x : Float) : Binary :=
  let bits := x.toBits.toNat
  let fraction := bits % fractionSize
  let field : Nat := bits / fractionSize % fieldSize
  let negative := bits / fractionSize / fieldSize == 1
  if field = 0 then ⟨negative, fraction, leastExponent⟩
  else ⟨negative, fractionSize + fraction, leastExponent + ((field : Int) - 1)⟩

/-- A power with a whole exponent; one where the exponent is negative. -/
def power (base : Nat) (e : Int) : Nat := Nat.pow base e.toNat

def ratio (b : Binary) : Nat × Nat :=
  (b.mantissa * power 2 b.exponent, power 2 (-b.exponent))

end Binary

end ProceduralShapes.Decimal
