/-!
# Faults in a patch file

An error has a cause and the line that it is about, counted from one.
-/

namespace ProceduralShapes.Rib

/-- The numbers that a patch is made of: sixteen points. -/
def patchValues : Nat := 48

inductive Cause
  | unsupportedBasis (basis : String)
  | unexpectedEnd (collected : Nat)
  | tooManyValues (count : Nat)
  | invalidNumber (word : String)
  | wrongArity (directive : String) (expected found : Nat)
  | degenerateAxis
  | unbalancedEnd
deriving DecidableEq, Repr

structure Error where
  line : Nat
  cause : Cause
deriving DecidableEq, Repr

def Cause.message : Cause → String
  | .unsupportedBasis basis => s!"unsupported patch basis `{basis}`, only `bicubic` is understood"
  | .unexpectedEnd collected => s!"input ended after {collected} of {patchValues} patch values"
  | .tooManyValues count => s!"patch has {count} values, expected {patchValues}"
  | .invalidNumber word => s!"`{word}` is not a number"
  | .wrongArity directive expected found => s!"{directive} takes {expected} arguments, found {found}"
  | .degenerateAxis => "rotation axis has zero length"
  | .unbalancedEnd => "TransformEnd without matching TransformBegin"

def Error.message (e : Error) : String := s!"line {e.line}: {e.cause.message}"

end ProceduralShapes.Rib
