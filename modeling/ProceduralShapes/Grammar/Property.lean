import ProceduralShapes.Grammar.Error
import ProceduralShapes.Markup.Attribute

/-!
# Properties of elements

The elements of a document of rules have properties. A property is an attribute, or an element
inside whose name is that of the attribute behind an at sign and whose text is the value. No
property may be given twice.

In an attribute that holds text, references stand for characters; an attribute that holds a
number has none. In the text of an element they always do.

A document is read from its beginning to its end, and the first fault found is the error. A
repeated property is a fault before its value is looked at.
-/

namespace ProceduralShapes.Grammar

open Markup (Attribute Node Passage)

/-- What a part of a document has to be for the document to be well formed. -/
def required {β : Type} : Option β → Except LoadError β
  | some b => .ok b
  | none => .error .malformed

/-- What has to hold for a document to be well formed. -/
def demand (holds : Bool) : Except LoadError Unit := if holds then .ok () else .error .malformed

/-- A property that an element may have: its name and, if it is a number, which texts write one. -/
structure Key where
  name : String
  number? : Option (String → Bool)

namespace Key

def text (name : String) : Key := ⟨name, none⟩

def number {β : Type} (name : String) (read : String → Option β) : Key :=
  ⟨name, some fun s => (read s).isSome⟩

def ofAttribute? (k : Key) (raw : List Char) : Option String :=
  match k.number? with
  | none => (Markup.unescape? raw).map String.ofList
  | some writes => some (String.ofList raw) |>.filter writes

def ofText? (k : Key) (s : String) : Option String :=
  match k.number? with
  | none => some s
  | some writes => some s |>.filter writes

def named? (keys : List Key) (name : String) : Option Key := keys.find? fun k => k.name = name

def ofElement? (keys : List Key) (name : String) : Option Key := keys.find? fun k => "@" ++ k.name = name

end Key

/-- The text of an element that stands for an attribute. Other elements do not belong in it. Two
passages with a declaration between them are not joined. -/
def propertyText (content : List Node) (whole : Bool) : Except LoadError String :=
  match content with
  | [] => do
    demand whole
    return ""
  | .text ps :: .text qs :: _ => do
    demand (ps.isSound && qs.isSound)
    .error .dividedText
  | [.text ps] => do
    demand whole
    required ps.value?
  | _ => .error .malformed

/-- Values by the names of their keys, in order. -/
abbrev Properties := List (String × String)

namespace Properties

def get? (ps : Properties) (name : String) : Option String := ps.lookup name

/-- Properties with one more behind them, which none of them is yet. -/
def add (ps : Properties) (k : Key) (value : Except LoadError String) : Except LoadError Properties := do
  demand (ps.get? k.name).isNone
  return ps ++ [(k.name, ← value)]

/-- The properties that attributes give. Other attributes may hold anything. -/
def ofAttributes (keys : List Key) (as : List Attribute) : Except LoadError Properties :=
  as.foldlM (fun ps (name, raw) =>
    match Key.named? keys (Markup.attributeName name) with
    | some k => ps.add k (required (k.ofAttribute? raw))
    | none => .ok ps) []

/-- An element with this content may be passed over: it is whole and, if it begins with text, the
references there are in order. It is not looked into any further. -/
def passable (content : List Node) (whole : Bool) : Bool :=
  whole && match content with
    | .text ps :: _ => ps.isSound
    | _ => true

/-- Adds what one part of an element gives. Namespaces do not matter. A part that gives no property
is passed over, but references in text must be in order. -/
def addPart (keys : List Key) (ps : Properties) : Node → Except LoadError Properties
  | .text passage => do
    demand passage.isSound
    return ps
  | .element tag content whole =>
    match Key.ofElement? keys (Markup.localName tag.name) with
    | some k => ps.add k do required (k.ofText? (← propertyText content whole))
    | none => do
      demand (passable content whole)
      return ps

def addParts (keys : List Key) (ps : Properties) (parts : List Node) : Except LoadError Properties :=
  parts.foldlM (addPart keys) ps

end Properties

end ProceduralShapes.Grammar
