import ProceduralShapes.Grammar.Spec

/-!
# Faults of a grammar

A document may fail to load, and a rule may fail to be chosen.
-/

namespace ProceduralShapes.Grammar

inductive LoadError
  | malformed
  /-- A declaration divides the text of an element that stands for an attribute. -/
  | dividedText
  | missingAttribute (element key : String)
  | invalidMaxDepth
  | spec (e : Spec.Error)
deriving DecidableEq, Repr

inductive PickError
  | noSuchRule (name : String) (suggestion : Option String)
  | noSelectableVariant (name : String)
deriving DecidableEq, Repr

def LoadError.message : LoadError → String
  | .malformed => "XML parse error"
  | .dividedText => "text divided by a declaration"
  | .missingAttribute element key => s!"<{element}> is missing the `{key}` attribute"
  | .invalidMaxDepth => "max_depth must be a positive integer"
  | .spec e => e.message

def PickError.message : PickError → String
  | .noSuchRule name none => s!"no rule named `{name}`"
  | .noSuchRule name (some near) => s!"no rule named `{name}` (did you mean `{near}`?)"
  | .noSelectableVariant name => s!"every variant of rule `{name}` has weight 0"

end ProceduralShapes.Grammar
