import ProceduralShapes.Journal
import ProceduralShapes.Patch.Basic
import ProceduralShapes.Rib.Directive

/-!
# Reading a patch file

A file is read line by line. The state between two lines is the current transform, the
transforms saved by the blocks that are open, the patches read so far, and a patch that still
waits for values. While a patch waits, every line holds values for it.
-/

namespace ProceduralShapes.Rib

open Decimal (Numeral)

variable {α : Type}

/-- A patch that has fewer values than it needs, and the line that it began on. -/
structure Waiting (α : Type) where
  line : Nat
  values : Array α

structure State (α : Type) where
  current : Transform α
  saved : List (Transform α)
  waiting : Option (Waiting α)
  patches : Array (Patch α)
  /-- The directives passed over, by line. -/
  skipped : Array (Nat × String)

def net (values : Array α) (h : values.size = 48) : Net α :=
  Vector.ofFn fun k : Fin 16 => ⟨values[3 * k.val], values[3 * k.val + 1], values[3 * k.val + 2]⟩

namespace State

variable [Scalar α]

def initial : State α := ⟨.identity, [], none, #[], #[]⟩

/-- Completes a patch that has all its values, and lets one that has fewer wait. -/
def settle (s : State α) (w : Waiting α) : Except Error (State α) :=
  if h : w.values.size = 48 then
    .ok { s with
      waiting := none
      patches := s.patches.push (Patch.ofNet (net w.values h) s.current .bezier) }
  else if w.values.size < patchValues then .ok { s with waiting := some w }
  else .error ⟨w.line, .tooManyValues w.values.size⟩

def perform (s : State α) (line : Nat) : Directive α → Except Error (State α)
  | .begin => .ok { s with saved := s.current :: s.saved }
  | .finish =>
    match s.saved with
    | t :: rest => .ok { s with current := t, saved := rest }
    | [] => .error ⟨line, .unbalancedEnd⟩
  | .move t => .ok { s with current := s.current * t }
  | .patch values => s.settle ⟨line, values.toArray⟩
  | .other name => .ok { s with skipped := s.skipped.push (line, name) }

section Reading
variable [Trig α] [SquareRoot α] [Finiteness α] [LT α] [DecidableLT α] [Numeral α]

/-- Takes the words of the next line in. A directive whose name begins with `#` is a comment. -/
def takeWords (s : State α) (line : Nat) (ws : List String) : Except Error (State α) :=
  match s.waiting with
  | some w => do
    let xs : List α ← numbers line ws
    s.settle ⟨w.line, w.values ++ xs⟩
  | none =>
    match ws with
    | [] => .ok s
    | name :: args =>
      if name.toList.head? = some '#' then .ok s
      else do
        let d : Directive α ← Directive.read line name args
        s.perform line d

/-- Takes lines in, the first of them numbered `line`. With an error comes the state before
the line at fault. -/
def takeLines (s : State α) (line : Nat) : List String → State α × Option Error
  | [] => (s, none)
  | text :: rest =>
    match s.takeWords line (words text) with
    | .ok next => next.takeLines (line + 1) rest
    | .error e => (s, some e)

end Reading

/-- The error that is in ending the file here. -/
def endError? (s : State α) : Option Error :=
  s.waiting.map fun w => ⟨w.line, .unexpectedEnd w.values.size⟩

end State

structure Reading (α : Type) where
  state : State α
  error? : Option Error

def Reading.patches (r : Reading α) : Except Error (Array (Patch α)) :=
  match r.error? with
  | some e => .error e
  | none => .ok r.state.patches

/-- What reading reports: the directives passed over, then blocks left open and the number of
patches. -/
def Reading.journal (r : Reading α) : List Record :=
  let skips := r.state.skipped.toList.map fun (line, name) =>
    Record.debug s!"line {line}: skipping RIB directive `{name}`"
  match r.error? with
  | some _ => skips
  | none =>
    let depth := r.state.saved.length
    skips ++
      (if depth = 0 then []
       else [.warn s!"{depth} TransformBegin block(s) left open at end of input"]) ++
      [.debug s!"parsed {r.state.patches.size} bicubic patches"]

def readLines [Scalar α] [Trig α] [SquareRoot α] [Finiteness α] [LT α] [DecidableLT α]
    [Numeral α] (texts : List String) : Reading α :=
  match State.initial.takeLines 1 texts with
  | (s, some e) => ⟨s, some e⟩
  | (s, none) => ⟨s, s.endError?⟩

def read [Scalar α] [Trig α] [SquareRoot α] [Finiteness α] [LT α] [DecidableLT α] [Numeral α]
    (text : String) : Reading α := readLines (Text.lines text)

end ProceduralShapes.Rib
