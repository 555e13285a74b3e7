import ProceduralShapes.Grammar.Basic
import ProceduralShapes.Journal

/-!
# Documents of rules

A document lists rules with their attributes as they were given, or not given. Building a
grammar from it checks the document's depth limit, then the rules in order: the depth limit
of a rule, then its statements, the target of a statement before its transform. The first
check that fails is the error.
-/

namespace ProceduralShapes.Grammar

variable {α : Type}

namespace Document

inductive Kind
  | call
  | place
deriving DecidableEq, Repr

structure Statement where
  kind : Kind
  target? : Option String
  spec : String
  count? : Option Nat
deriving DecidableEq, Repr

structure Rule where
  name : String
  weight? : Option UInt32
  maxDepth? : Option Int
  successor? : Option String
  statements : List Statement
deriving DecidableEq, Repr

end Document

structure Document where
  maxDepth? : Option Int
  rules : List Document.Rule
deriving DecidableEq, Repr

namespace Document

def Kind.element : Kind → String
  | .call => "call"
  | .place => "instance"

def Kind.targetKey : Kind → String
  | .call => "rule"
  | .place => "shape"

def Kind.action : Kind → String → Action
  | .call => .call
  | .place => .place

/-- A depth limit, which is not negative. -/
def depth (d : Int) : Except LoadError Nat :=
  if d < 0 then .error .invalidMaxDepth else .ok d.toNat

section Building
variable [Scalar α] [Trig α] [Decimal.Numeral α]

def Statement.build (s : Statement) : Except LoadError (ProceduralShapes.Statement α) :=
  match s.target? with
  | none => .error (.missingAttribute s.kind.element s.kind.targetKey)
  | some target =>
    (Statement.ofSpec (s.kind.action target) s.spec (s.count?.getD 1)).mapError .spec

def Rule.build (r : Rule) : Except LoadError (Variant α) := do
  let maxDepth? ← r.maxDepth?.mapM depth
  let statements ← r.statements.mapM Statement.build
  return { name := r.name, weight := r.weight?.getD 1, maxDepth?, successor? := r.successor?, statements }

def build (d : Document) : Except LoadError (Grammar α) :=
  match d.maxDepth? with
  | none => .error (.missingAttribute "rules" "max_depth")
  | some limit => do
    let maxDepth ← depth limit
    let g ← Grammar.ofMaxDepth maxDepth
    let variants ← d.rules.mapM Rule.build
    return variants.foldl Grammar.add g

end Building

end Document

def journal (g : Grammar α) : List Record :=
  [.debug s!"loaded grammar: {g.variants.size} variants, {g.ruleNames.length} rule names, max_depth {g.maxDepth}"]

end ProceduralShapes.Grammar
