import ProceduralShapes.Decimal.Binary

/-!
# The shortest decimal

The shortest decimal of a double is the one with the fewest digits among those that read back
as the double, and of these the nearest to it; halfway between two, the greater. The decimals
that read back form an interval around the value, whose ends belong to it when the mantissa
is even.

The search starts on a grid of decimals so fine that some grid point lies in the interval,
and moves to the grid ten times as coarse as long as that one still has a point in it.
-/

namespace ProceduralShapes.Decimal

/-- The number `digits · 10 ^ exponent`. -/
structure Digits where
  digits : Nat
  exponent : Int
deriving DecidableEq, Repr

namespace Shortest

/-- A power of ten that is at most `2 ^ n` and at least a hundredth of it. -/
def tenBelow (n : Int) : Int := if 0 ≤ n then n * 30102 / 100000 else n * 30103 / 100000

/-- Half the distance to the next double below, in quarters of the last place. It is one
quarter only at a power of two, below which doubles lie twice as dense. -/
def lowerGap (b : Binary) : Nat :=
  if b.mantissa = Binary.fractionSize ∧ b.exponent ≠ Binary.leastExponent then 1 else 2

/-- The value and its interval on one grid: the first and the last grid point inside, the
grid point at or below the value, and whether the value lies at least half way to the next. -/
structure Window where
  first : Nat
  last : Nat
  below : Nat
  upper : Bool
deriving DecidableEq, Repr

def window (b : Binary) (p : Int) : Window :=
  let unit := Binary.power 2 (b.exponent - 2) * Binary.power 10 (-p)
  let one := Binary.power 2 (2 - b.exponent) * Binary.power 10 p
  let value := 4 * b.mantissa * unit
  let low := (4 * b.mantissa - lowerGap b) * unit
  let high := (4 * b.mantissa + 2) * unit
  let below := value / one
  let upper := one ≤ 2 * (value % one)
  if b.mantissa % 2 = 0 then ⟨(low + (one - 1)) / one, high / one, below, upper⟩
  else ⟨low / one + 1, (high - 1) / one, below, upper⟩

def Window.coarser (w : Window) : Window :=
  ⟨(w.first + 9) / 10, w.last / 10, w.below / 10, 5 ≤ w.below % 10⟩

def Window.nearest (w : Window) : Nat :=
  if w.below < w.first then w.below + 1
  else if w.last ≤ w.below then w.below
  else if w.upper then w.below + 1
  else w.below

/-- Moves to coarser grids as long as one of at most `k` more steps has a point inside. -/
def coarsest : Nat → Window → Int → Digits
  | 0, w, p => ⟨w.nearest, p⟩
  | k + 1, w, p =>
    if w.coarser.first ≤ w.coarser.last then coarsest k w.coarser (p + 1) else ⟨w.nearest, p⟩

/-- The digits of a positive value. The first grid has at most eighteen digits. -/
def ofBinary (b : Binary) : Digits :=
  let p := tenBelow (b.mantissa.log2 + b.exponent) - 16
  coarsest 18 (window b p) p

end Shortest

/-- The text of a decimal without a power of ten: zeros fill up the whole part, or stand
between the point and the digits. -/
def Digits.positional (d : Digits) : String :=
  let ds := Nat.toDigits 10 d.digits
  let places := (-d.exponent).toNat
  if places = 0 then String.ofList (ds ++ List.replicate d.exponent.toNat '0')
  else if places < ds.length then
    String.ofList (ds.take (ds.length - places) ++ '.' :: ds.drop (ds.length - places))
  else String.ofList ('0' :: '.' :: List.replicate (places - ds.length) '0' ++ ds)

def positional (x : Float) : String :=
  if x.isNaN then "NaN"
  else
    let b := Binary.ofFloat x
    let magnitude :=
      if x.isInf then "inf"
      else if b.mantissa = 0 then "0"
      else (Shortest.ofBinary b).positional
    if b.negative then "-" ++ magnitude else magnitude

end ProceduralShapes.Decimal
