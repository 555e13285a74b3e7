import ProceduralShapes.Space.Vec

/-!
# Transforms

A transform is a matrix of four rows. Points are columns, so `a * b` applies `b` first and
then `a`, and a placement inside another multiplies from the right. Every product of a row
and a column is summed from the left.
-/

namespace ProceduralShapes

variable {α : Type}

structure Row (α : Type) where
  x : α
  y : α
  z : α
  w : α
deriving BEq, DecidableEq

structure Transform (α : Type) where
  row0 : Row α
  row1 : Row α
  row2 : Row α
  row3 : Row α
deriving BEq, DecidableEq

namespace Row

def toList (r : Row α) : List α := [r.x, r.y, r.z, r.w]

variable [Scalar α]

def dot (r c : Row α) : α := r.x * c.x + r.y * c.y + r.z * c.z + r.w * c.w

/-- The product summed from zero, so that no sum of zeros is negative. -/
def sumProducts (r c : Row α) : α := 0 + r.x * c.x + r.y * c.y + r.z * c.z + r.w * c.w

/-- What the row makes of a point, whose fourth coordinate counts as one. -/
def atPoint (r : Row α) (p : Point α) : α := r.x * p.x + r.y * p.y + r.z * p.z + r.w

end Row

namespace Transform

def ofRows (v : Vector α 16) : Transform α :=
  ⟨⟨v[0], v[1], v[2], v[3]⟩, ⟨v[4], v[5], v[6], v[7]⟩,
   ⟨v[8], v[9], v[10], v[11]⟩, ⟨v[12], v[13], v[14], v[15]⟩⟩

def rows (t : Transform α) : List (Row α) := [t.row0, t.row1, t.row2, t.row3]

def row? (t : Transform α) (i : Nat) : Option (Row α) := t.rows[i]?

def transpose (t : Transform α) : Transform α :=
  ⟨⟨t.row0.x, t.row1.x, t.row2.x, t.row3.x⟩, ⟨t.row0.y, t.row1.y, t.row2.y, t.row3.y⟩,
   ⟨t.row0.z, t.row1.z, t.row2.z, t.row3.z⟩, ⟨t.row0.w, t.row1.w, t.row2.w, t.row3.w⟩⟩

def translation (t : Transform α) : Vec α := ⟨t.row0.w, t.row1.w, t.row2.w⟩

section Arithmetic
variable [Scalar α]

/-! ### Elementary transforms -/

def identity : Transform α := ⟨⟨1, 0, 0, 0⟩, ⟨0, 1, 0, 0⟩, ⟨0, 0, 1, 0⟩, ⟨0, 0, 0, 1⟩⟩

instance : Inhabited (Transform α) := ⟨identity⟩

def translate (v : Vec α) : Transform α :=
  ⟨⟨1, 0, 0, v.x⟩, ⟨0, 1, 0, v.y⟩, ⟨0, 0, 1, v.z⟩, ⟨0, 0, 0, 1⟩⟩

def scale (v : Vec α) : Transform α :=
  ⟨⟨v.x, 0, 0, 0⟩, ⟨0, v.y, 0, 0⟩, ⟨0, 0, v.z, 0⟩, ⟨0, 0, 0, 1⟩⟩

def uniformScale (s : α) : Transform α := scale (Vec.splat s)

/-! ### Rotations

A turn is given by the cosine `c` and the sine `s` of its angle. -/

def turnX (c s : α) : Transform α := ⟨⟨1, 0, 0, 0⟩, ⟨0, c, -s, 0⟩, ⟨0, s, c, 0⟩, ⟨0, 0, 0, 1⟩⟩

def turnY (c s : α) : Transform α := ⟨⟨c, 0, s, 0⟩, ⟨0, 1, 0, 0⟩, ⟨-s, 0, c, 0⟩, ⟨0, 0, 0, 1⟩⟩

def turnZ (c s : α) : Transform α := ⟨⟨c, -s, 0, 0⟩, ⟨s, c, 0, 0⟩, ⟨0, 0, 1, 0⟩, ⟨0, 0, 0, 1⟩⟩

/-- The turn about an axis of length one, right-handed. -/
def turnAbout (axis : Vec α) (c s : α) : Transform α :=
  let t := 1 - c
  let x := axis.x
  let y := axis.y
  let z := axis.z
  ⟨⟨t * x * x + c, t * x * y - s * z, t * x * z + s * y, 0⟩,
   ⟨t * x * y + s * z, t * y * y + c, t * y * z - s * x, 0⟩,
   ⟨t * x * z - s * y, t * y * z + s * x, t * z * z + c, 0⟩,
   ⟨0, 0, 0, 1⟩⟩

section Angle
variable [Trig α]

def rotateX (angle : α) : Transform α := turnX (cos angle) (sin angle)

def rotateY (angle : α) : Transform α := turnY (cos angle) (sin angle)

def rotateZ (angle : α) : Transform α := turnZ (cos angle) (sin angle)

/-- The rotation about an axis of any length. An axis that cannot be normalized has none. -/
def rotateAbout? [SquareRoot α] [Finiteness α] [LT α] [DecidableLT α] (axis : Vec α)
    (angle : α) : Option (Transform α) :=
  axis.normalized?.map fun unit => turnAbout unit (cos angle) (sin angle)

end Angle

/-! ### Products -/

/-- The row `r · t`, given the columns of `t`. -/
def rowTimes (r : Row α) (columns : Transform α) : Row α :=
  ⟨r.dot columns.row0, r.dot columns.row1, r.dot columns.row2, r.dot columns.row3⟩

def compose (a b : Transform α) : Transform α :=
  let columns := b.transpose
  ⟨rowTimes a.row0 columns, rowTimes a.row1 columns, rowTimes a.row2 columns,
   rowTimes a.row3 columns⟩

instance : Mul (Transform α) := ⟨compose⟩

def bilinear (t : Transform α) (row column : Row α) : α :=
  row.sumProducts ⟨t.row0.sumProducts column, t.row1.sumProducts column,
    t.row2.sumProducts column, t.row3.sumProducts column⟩

/-- The image of a point. The fourth row plays no part. -/
def apply (t : Transform α) (p : Point α) : Point α :=
  ⟨t.row0.atPoint p, t.row1.atPoint p, t.row2.atPoint p⟩

end Arithmetic

end Transform

end ProceduralShapes
