import ProceduralShapes.Grammar.Basic
import ProceduralShapes.Scene

/-!
# Frames

A frame is a variant that waits to be run, with the transform that was current where it was
called. Running a frame either drops it, or restarts it with the successor of its variant, or
runs its statements; what it leaves behind are the frames of its calls, in their order.

Frames called have the depth one greater and the same number of restarts (`Work.Spawned`).
-/

namespace ProceduralShapes.Grammar

variable {α σ : Type} {g : Grammar α}

structure Frame (g : Grammar α) where
  variant : g.Ref
  depth : Nat
  /-- How often a successor was put in along the line of calls that leads here. -/
  restarts : Nat
  transform : Transform α

structure Stats where
  processed : Nat := 0
  /-- Frames not run because too many others waited, or after too many restarts. -/
  dropped : Nat := 0
  exhausted : Nat := 0
  /-- The most frames that waited after one was run. -/
  peak : Nat := 0
deriving DecidableEq, Repr

structure Run (α σ : Type) where
  source : σ
  placed : Array (Placement α) := #[]
  stats : Stats := {}
  /-- The number of placements at the last notification. -/
  reported : Nat := 0
  notified : Array Nat := #[]

/-- The state while the statements of one frame run: the transform grows from one repetition
to the next. -/
structure Work (g : Grammar α) (σ : Type) where
  source : σ
  transform : Transform α
  children : Array (Frame g)
  placed : Array (Placement α)

/-! ### Statements -/

namespace Work

variable [Scalar α] [RandomSource σ]

/-- One repetition of a statement of the frame `f`. -/
def once (f : Frame g) (s : Statement α) (w : Work g σ) : Except PickError (Work g σ) :=
  match w with
  | ⟨source, transform, children, placed⟩ =>
    let t := transform * s.transform
    match s.action with
    | .call rule =>
      match g.pick rule source with
      | .ok (i, source) => .ok ⟨source, t, children.push ⟨i, f.depth + 1, f.restarts, t⟩, placed⟩
      | .error e => .error e
    | .place shape => .ok ⟨source, t, children, placed.push ⟨shape, t⟩⟩

def times (f : Frame g) (s : Statement α) : Nat → Work g σ → Except PickError (Work g σ)
  | 0, w => .ok w
  | n + 1, w =>
    match w.once f s with
    | .ok next => times f s n next
    | .error e => .error e

def all (f : Frame g) : List (Statement α) → Work g σ → Except PickError (Work g σ)
  | [], w => .ok w
  | s :: rest, w =>
    match times f s s.count w with
    | .ok next => all f rest next
    | .error e => .error e

end Work

/-! ### Running a frame -/

namespace Run

/-- Starts on the next frame, and gives notice if `interval` placements were made since the
last time. An interval of zero never gives notice. -/
def arrive (interval : Nat) (r : Run α σ) : Run α σ :=
  match r with
  | ⟨source, placed, stats, reported, notified⟩ =>
    let stats := { stats with processed := stats.processed + 1 }
    if interval = 0 ∨ placed.size < reported + interval then
      ⟨source, placed, stats, reported, notified⟩
    else
      let count := placed.size
      ⟨source, placed, stats, count, notified.push count⟩

def drop (r : Run α σ) : Run α σ :=
  { r with stats := { r.stats with dropped := r.stats.dropped + 1 } }

def exhaust (r : Run α σ) : Run α σ :=
  { r with stats := { r.stats with exhausted := r.stats.exhausted + 1 } }

end Run

namespace Frame

def rule (f : Frame g) : Variant α := g.variant f.variant

/-- The depth at which the frame's variant ends. -/
def limit (f : Frame g) : Nat := f.rule.maxDepth?.getD g.maxDepth

/-- The frame is not to be run with so many others waiting below it. -/
def Dropped (f : Frame g) (below : Nat) : Prop := g.maxDepth ≤ below ∨ g.maxDepth ≤ f.restarts

instance (f : Frame g) (below : Nat) : Decidable (f.Dropped below) :=
  inferInstanceAs (Decidable (_ ∨ _))

/-- Puts the successor in the frame's place, at depth zero. -/
def restart [RandomSource σ] (f : Frame g) (r : Run α σ) :
    Except PickError (Array (Frame g) × Run α σ) :=
  match f.rule.successor? with
  | none => .ok (#[], r)
  | some rule =>
    match r with
    | ⟨source, placed, stats, reported, notified⟩ =>
      match g.pick rule source with
      | .ok (i, source) =>
        .ok (#[⟨i, 0, f.restarts + 1, f.transform⟩], ⟨source, placed, stats, reported, notified⟩)
      | .error e => .error e

def expand [Scalar α] [RandomSource σ] (f : Frame g) (below : Nat) (r : Run α σ) :
    Except PickError (Array (Frame g) × Run α σ) :=
  match r with
  | ⟨source, placed, stats, reported, notified⟩ =>
    match Work.all f f.rule.statements ⟨source, f.transform, #[], placed⟩ with
    | .ok ⟨source, _, children, placed⟩ =>
      let peak := max stats.peak (below + children.size)
      .ok (children, ⟨source, placed, { stats with peak }, reported, notified⟩)
    | .error e => .error e

/-- Deals with the frame while `below` others wait below it. The answer holds the frames that
it leaves to be run, the last of them first. -/
def step [Scalar α] [RandomSource σ] (f : Frame g) (below : Nat) (r : Run α σ) :
    Except PickError (Array (Frame g) × Run α σ) :=
  if f.Dropped below then .ok (#[], r.drop)
  else if f.limit ≤ f.depth then f.restart r.exhaust
  else f.expand below r

end Frame

end ProceduralShapes.Grammar
