import ProceduralShapes.Scalar

/-!
# Vectors and points

A vector is a displacement, a point a place: points differ by vectors, and a vector moves a
point. Sums are taken from the left in the order of the axes.
-/

namespace ProceduralShapes

variable {α : Type}

structure Vec (α : Type) where
  x : α
  y : α
  z : α
deriving BEq, DecidableEq

structure Point (α : Type) where
  x : α
  y : α
  z : α
deriving BEq, DecidableEq

/-! ### Vectors -/

namespace Vec

section Arithmetic
variable [Scalar α]

def zero : Vec α := ⟨0, 0, 0⟩

def unitX : Vec α := ⟨1, 0, 0⟩

def unitY : Vec α := ⟨0, 1, 0⟩

def unitZ : Vec α := ⟨0, 0, 1⟩

def splat (s : α) : Vec α := ⟨s, s, s⟩

def scale (v : Vec α) (s : α) : Vec α := ⟨v.x * s, v.y * s, v.z * s⟩

instance : Add (Vec α) := ⟨fun v w => ⟨v.x + w.x, v.y + w.y, v.z + w.z⟩⟩

instance : Sub (Vec α) := ⟨fun v w => ⟨v.x - w.x, v.y - w.y, v.z - w.z⟩⟩

instance : Neg (Vec α) := ⟨fun v => ⟨-v.x, -v.y, -v.z⟩⟩

instance : HMul (Vec α) α (Vec α) := ⟨scale⟩

instance : HMul α (Vec α) (Vec α) := ⟨fun s v => v.scale s⟩

instance : HDiv (Vec α) α (Vec α) := ⟨fun v s => ⟨v.x / s, v.y / s, v.z / s⟩⟩

def dot (v w : Vec α) : α := v.x * w.x + v.y * w.y + v.z * w.z

def cross (v w : Vec α) : Vec α :=
  ⟨v.y * w.z - v.z * w.y, v.z * w.x - v.x * w.z, v.x * w.y - v.y * w.x⟩

def lengthSquared (v : Vec α) : α := v.dot v

def length [SquareRoot α] (v : Vec α) : α := SquareRoot.sqrt v.lengthSquared

/-- The vector of length one in the same direction. A vector without a positive finite
length has none. -/
def normalized? [SquareRoot α] [Finiteness α] [LT α] [DecidableLT α] (v : Vec α) :
    Option (Vec α) :=
  if isFinite v.length ∧ 0 < v.length then some (v / v.length) else none

def normalizedOrZero [SquareRoot α] [Finiteness α] [LT α] [DecidableLT α] (v : Vec α) : Vec α :=
  v.normalized?.getD zero

end Arithmetic

def toPoint (v : Vec α) : Point α := ⟨v.x, v.y, v.z⟩

end Vec

/-! ### Points -/

namespace Point

def toVec (p : Point α) : Vec α := ⟨p.x, p.y, p.z⟩

def isFinite [Finiteness α] (p : Point α) : Bool :=
  Finiteness.isFinite p.x && Finiteness.isFinite p.y && Finiteness.isFinite p.z

section Arithmetic
variable [Scalar α]

def origin : Point α := ⟨0, 0, 0⟩

instance : HAdd (Point α) (Vec α) (Point α) := ⟨fun p v => ⟨p.x + v.x, p.y + v.y, p.z + v.z⟩⟩

instance : HSub (Point α) (Vec α) (Point α) := ⟨fun p v => ⟨p.x - v.x, p.y - v.y, p.z - v.z⟩⟩

instance : HSub (Point α) (Point α) (Vec α) := ⟨fun p q => ⟨p.x - q.x, p.y - q.y, p.z - q.z⟩⟩

def distance [SquareRoot α] (p q : Point α) : α := (p - q : Vec α).length

end Arithmetic

end Point

end ProceduralShapes
