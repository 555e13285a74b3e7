import ProceduralShapes.Grammar.Document
import ProceduralShapes.Grammar.Property
import ProceduralShapes.Text.Digits

/-!
# Reading a document of rules

A document of rules is marked-up text. Its outermost element, of any name, has the depth limit
as a property and holds elements `rule`, which stand one behind the other. Each of them has
properties and holds elements for its statements, which stand one behind the other too, and
nothing else. Other elements around the rules or in a statement, and text there, are passed
over. Attributes that no rule needs may hold anything.
-/

namespace ProceduralShapes.Grammar

namespace Document

open Markup (Node Tag)

/-! ### Keys -/

def readDepth : String → Option Int := Text.signed?

def readWeight (s : String) : Option UInt32 := (Text.unsigned? UInt32.size s).map Nat.toUInt32

def readCount : String → Option Nat := Text.unsigned? UInt64.size

def Kind.keys (k : Kind) : List Key := [.text k.targetKey, .text "transforms", .number "count" readCount]

def Rule.keys : List Key :=
  [.text "name", .number "weight" readWeight, .number "max_depth" readDepth, .text "successor"]

def keys : List Key := [.number "max_depth" readDepth]

/-! ### Statements -/

def kind? : String → Option Kind
  | "call" => some .call
  | "instance" | "instantiate" => some .place
  | _ => none

def Statement.ofNode : Node → Except LoadError Statement
  | .text _ => .error .malformed
  | .element tag content whole => do
    let kind ← required (kind? (Markup.localName tag.name))
    let given ← Properties.ofAttributes kind.keys (← required tag.attributes?)
    let ps ← given.addParts kind.keys content
    demand whole
    return ⟨kind, ps.get? kind.targetKey, (ps.get? "transforms").getD "", (ps.get? "count").bind readCount⟩

/-! ### Rules -/

/-- An element that stands for an attribute of a rule. It has no namespace. -/
def Rule.isProperty : Node → Bool
  | .element tag _ _ => (Key.ofElement? Rule.keys tag.name).isSome
  | .text _ => false

/-- The name, with its namespace, of an element that is a rule. -/
def ruleName? : Node → Option String
  | .element tag _ _ => if Markup.localName tag.name = "rule" then some tag.name else none
  | .text _ => none

def Rule.ofNode : Node → Except LoadError Rule
  | .text _ => .error .malformed
  | .element tag content whole => do
    let given ← Properties.ofAttributes Rule.keys (← required tag.attributes?)
    let (before, rest) := content.span Rule.isProperty
    let (block, rest) := rest.span fun n => !Rule.isProperty n
    let (after, rest) := rest.span Rule.isProperty
    let given ← given.addParts Rule.keys before
    let statements ← block.mapM Statement.ofNode
    let ps ← given.addParts Rule.keys after
    demand (rest.isEmpty && whole)
    let name ← required (ps.get? "name")
    return ⟨name, (ps.get? "weight").bind readWeight, (ps.get? "max_depth").bind readDepth,
      ps.get? "successor", statements⟩

/-! ### The document -/

def isText : Node → Bool
  | .text _ => true
  | .element _ _ _ => false

/-- The rules that the parts begin with, all of one name, and the parts behind them. Text may not
follow a rule. -/
def rulesOf (parts : List Node) : Except LoadError (List Rule × List Node) := do
  match parts with
  | [] => return ([], [])
  | first :: _ =>
    let (block, rest) := parts.span fun n => ruleName? n = ruleName? first
    let rules ← block.mapM Rule.ofNode
    demand !rest.head?.any isText
    return (rules, rest)

def ofNode : Node → Except LoadError Document
  | .text _ => .error .malformed
  | .element tag content whole => do
    let given ← Properties.ofAttributes keys (← required tag.attributes?)
    let (before, rest) := content.span fun n => (ruleName? n).isNone
    let given ← given.addParts keys before
    let (rules, rest) ← rulesOf rest
    let (after, rest) := rest.span fun n => (ruleName? n).isNone
    let ps ← given.addParts keys after
    demand (rest.isEmpty && whole)
    return ⟨(ps.get? "max_depth").bind readDepth, rules⟩

def ofText (s : String) : Except LoadError Document := do ofNode (← required (Markup.document? s))

end Document

variable {α : Type}

def ofText [Scalar α] [Trig α] [Decimal.Numeral α] (s : String) : Except LoadError (Grammar α) := do
  (← Document.ofText s).build

end ProceduralShapes.Grammar
