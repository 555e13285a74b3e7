/-!
# Scalars

The geometry is written over any type with the operations below. Double precision numbers
run; an exact field satisfies the same definitions, and the theorems about shapes speak of
it. Each class holds only what some definition needs, so that a statement about sums and
products asks for no square root.
-/

namespace ProceduralShapes

/-- Arithmetic, with an image of every natural number. -/
class Scalar (α : Type) extends
  Zero α, One α, Add α, Sub α, Mul α, Div α, Neg α, NatCast α

/-- Sine and cosine of an angle in radians, and the half turn. -/
class Trig (α : Type) where
  sin : α → α
  cos : α → α
  pi : α

/-- The square root that gives a length from its square. -/
class SquareRoot (α : Type) where
  sqrt : α → α

/-- The distance of a number from zero. -/
class AbsoluteValue (α : Type) where
  abs : α → α

/-- Which values are numbers: neither infinite nor undefined. -/
class Finiteness (α : Type) where
  isFinite : α → Bool

export Trig (sin cos pi)
export Finiteness (isFinite)

def tau {α : Type} [Scalar α] [Trig α] : α := (2 : Nat) * pi

def radians {α : Type} [Scalar α] [Trig α] (degrees : α) : α :=
  degrees * (pi / (180 : Nat))

/-! ### Double precision numbers -/

instance floatNatCast : NatCast Float := ⟨Float.ofNat⟩

instance : Scalar Float where
  zero := 0
  one := 1

/-- The double nearest to half the circumference of the unit circle is `884279719003555 / 2 ^ 48`. -/
instance : Trig Float where
  sin := Float.sin
  cos := Float.cos
  pi := Float.ofBits 0x400921FB54442D18

instance : SquareRoot Float := ⟨Float.sqrt⟩

instance : AbsoluteValue Float := ⟨Float.abs⟩

instance : Finiteness Float := ⟨Float.isFinite⟩

end ProceduralShapes
