/-!
# Faults

Meshes are held in buffers and faces name their corners by 32-bit numbers. A fault says that
an operation needs more than that, or that a face names a corner that does not exist.
-/

namespace ProceduralShapes

inductive Fault
  | bufferTooLarge (count : Nat)
  /-- A corner number does not fit in 32 bits. -/
  | cornerTooLarge
  | danglingCorner
deriving DecidableEq, Repr

/-- Bytes that one buffer can hold: the greatest signed number of 64 bits. -/
def addressableBytes : Nat := 9223372036854775807

/-- Vertices that one buffer can hold, at three doubles each. -/
def vertexLimit : Nat := addressableBytes / 24

/-- Faces that one buffer can hold, at three 32-bit corner numbers each. -/
def faceLimit : Nat := addressableBytes / 12

end ProceduralShapes
