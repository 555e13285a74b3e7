/-!
# Whole numbers in text

A whole number is written with the digits 0 to 9 alone. A sign may stand in front where the
kind of number has one; leading zeros are allowed, blanks are not.
-/

namespace ProceduralShapes.Text

/-- The number that the digits write, most significant first. -/
def digitsValue (ds : List Char) : Nat := ds.foldl (fun n d => 10 * n + (d.toNat - '0'.toNat)) 0

def natural? (cs : List Char) : Option Nat :=
  if !cs.isEmpty && cs.all Char.isDigit then some (digitsValue cs) else none

/-- Whether a minus sign stands in front, and the text behind the sign. -/
def splitSign : List Char → Bool × List Char
  | '-' :: cs => (true, cs)
  | '+' :: cs => (false, cs)
  | cs => (false, cs)

def integer? (cs : List Char) : Option Int :=
  let (negative, ds) := splitSign cs
  (natural? ds).map fun n => if negative then -(n : Int) else n

/-- A number below `size`, without a minus sign. -/
def unsigned? (size : Nat) (s : String) : Option Nat :=
  let (negative, ds) := splitSign s.toList
  if negative then none else (natural? ds).filter (· < size)

/-- A number that fits in 64 bits with its sign. -/
def signed? (s : String) : Option Int :=
  (integer? s.toList).filter fun i => Int64.minValue.toInt ≤ i ∧ i ≤ Int64.maxValue.toInt

end ProceduralShapes.Text
