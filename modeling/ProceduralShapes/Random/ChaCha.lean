import ProceduralShapes.Random.Source

/-!
# The ChaCha generator

The key stream of ChaCha with six double rounds. A block is a square of four columns of four
words, mixed along its columns and along its diagonals in turn and added to the square that
it began as. The words of a block are drawn row by row, two at a time.
-/

namespace ProceduralShapes.ChaCha

structure Quarter where
  a : UInt32
  b : UInt32
  c : UInt32
  d : UInt32
deriving DecidableEq, Repr

/-- Sixteen words as four columns. -/
structure Block where
  col0 : Quarter
  col1 : Quarter
  col2 : Quarter
  col3 : Quarter
deriving DecidableEq, Repr

def rotateLeft (x n : UInt32) : UInt32 := (x <<< n) ||| (x >>> (32 - n))

def rotateRight (x n : UInt32) : UInt32 := (x >>> n) ||| (x <<< (32 - n))

namespace Quarter

def mix (q : Quarter) : Quarter :=
  let a := q.a + q.b
  let d := rotateLeft (q.d ^^^ a) 16
  let c := q.c + d
  let b := rotateLeft (q.b ^^^ c) 12
  let a := a + b
  let d := rotateLeft (d ^^^ a) 8
  let c := c + d
  let b := rotateLeft (b ^^^ c) 7
  ⟨a, b, c, d⟩

def add (q r : Quarter) : Quarter := ⟨q.a + r.a, q.b + r.b, q.c + r.c, q.d + r.d⟩

end Quarter

namespace Block

def mixColumns (s : Block) : Block := ⟨s.col0.mix, s.col1.mix, s.col2.mix, s.col3.mix⟩

/-- The diagonals, as columns. -/
def diagonals (s : Block) : Block :=
  ⟨⟨s.col0.a, s.col1.b, s.col2.c, s.col3.d⟩, ⟨s.col1.a, s.col2.b, s.col3.c, s.col0.d⟩,
   ⟨s.col2.a, s.col3.b, s.col0.c, s.col1.d⟩, ⟨s.col3.a, s.col0.b, s.col1.c, s.col2.d⟩⟩

/-- The block whose diagonals are these columns. -/
def ofDiagonals (s : Block) : Block :=
  ⟨⟨s.col0.a, s.col3.b, s.col2.c, s.col1.d⟩, ⟨s.col1.a, s.col0.b, s.col3.c, s.col2.d⟩,
   ⟨s.col2.a, s.col1.b, s.col0.c, s.col3.d⟩, ⟨s.col3.a, s.col2.b, s.col1.c, s.col0.d⟩⟩

theorem ofDiagonals_diagonals (s : Block) : s.diagonals.ofDiagonals = s := rfl

def doubleRound (s : Block) : Block := s.mixColumns.diagonals.mixColumns.ofDiagonals

def add (s t : Block) : Block :=
  ⟨s.col0.add t.col0, s.col1.add t.col1, s.col2.add t.col2, s.col3.add t.col3⟩

def scrambled (s : Block) : Block := (Nat.repeat doubleRound 6 s).add s

/-- A pair of words as one number, the first word lowest. -/
def pair (low high : UInt32) : UInt64 := low.toUInt64 ||| (high.toUInt64 <<< 32)

/-- The words row by row, in pairs. -/
def pairs (s : Block) : Vector UInt64 8 :=
  #v[pair s.col0.a s.col1.a, pair s.col2.a s.col3.a, pair s.col0.b s.col1.b, pair s.col2.b s.col3.b,
    pair s.col0.c s.col1.c, pair s.col2.c s.col3.c, pair s.col0.d s.col1.d, pair s.col2.d s.col3.d]

end Block

abbrev Key := Vector UInt32 8

/-- Four constants, the key, and the number of the block in 64 bits; the stream is number zero. -/
def initial (key : Key) (n : UInt64) : Block :=
  ⟨⟨0x61707865, key[0], key[4], n.toUInt32⟩, ⟨0x3320646e, key[1], key[5], (n >>> 32).toUInt32⟩,
   ⟨0x79622d32, key[2], key[6], 0⟩, ⟨0x6b206574, key[3], key[7], 0⟩⟩

def block (key : Key) (n : UInt64) : Vector UInt64 8 := (initial key n).scrambled.pairs

/-! ### Generators -/

/-- A key, how many numbers were drawn, and the block that the next one lies in. -/
structure Generator where
  key : Key
  drawn : Nat
  current : Vector UInt64 8

namespace Generator

def ofKey (key : Key) : Generator := ⟨key, 0, block key 0⟩

/-- The next state of the sequence that stretches a seed into a key. -/
def stretch (s : UInt64) : UInt64 := s * 6364136223846793005 + 11634580027462260723

/-- The word that a state of that sequence gives. -/
def keyWord (s : UInt64) : UInt32 :=
  rotateRight (((s >>> 18) ^^^ s) >>> 27).toUInt32 (s >>> 59).toUInt32

def ofSeed (seed : UInt64) : Generator :=
  ofKey (Vector.ofFn fun i : Fin 8 => keyWord (Nat.repeat stretch (i.val + 1) seed))

def next (g : Generator) : UInt64 × Generator :=
  let x := g.current.get ⟨g.drawn % 8, Nat.mod_lt _ (by decide)⟩
  let drawn := g.drawn + 1
  if drawn % 8 = 0 then (x, ⟨g.key, drawn, block g.key (drawn / 8).toUInt64⟩)
  else (x, ⟨g.key, drawn, g.current⟩)

/-- A number below `bound`: the high half of a product of 128 bits. When the low half lies
so high that a longer draw could carry into the high half, a second draw decides whether it
does. -/
def below (bound : Nat) (g : Generator) : Nat × Generator :=
  let (x, g) := g.next
  let product := x.toNat * bound
  let high := product / UInt64.size
  let low := product % UInt64.size
  if UInt64.size - bound < low then
    let (y, g) := g.next
    if UInt64.size ≤ low + y.toNat * bound / UInt64.size then (high + 1, g) else (high, g)
  else (high, g)

instance : RandomSource Generator := ⟨below⟩

end Generator

end ProceduralShapes.ChaCha
