import ProceduralShapes.Grammar.Bound
import ProceduralShapes.Random.ChaCha

/-!
# Evaluation

An evaluation keeps a stack of pending frames, with the entry rule's frame on it at first.
The frame on top is taken off and dealt with, and what it leaves behind goes on top in the
order of the calls, so the last call is followed up first. The evaluation ends when no frame
is pending, or with the first rule that cannot be chosen.
-/

namespace ProceduralShapes.Grammar

variable {α σ : Type}

structure Evaluation (α : Type) where
  placed : Array (Placement α)
  stats : Stats

def Evaluation.summary (e : Evaluation α) : String :=
  s!"generated {e.placed.size} shapes ({e.stats.processed} frames, {e.stats.dropped} dropped)"

/-- The result of an evaluation, and the numbers of placements that notice was given of. -/
structure Outcome (α : Type) where
  notified : Array Nat
  result : Except PickError (Evaluation α)

section Loop
variable [Scalar α] [RandomSource σ]

/-- Deals with the pending frames, the last first, until none is left. -/
def loop {g : Grammar α} (interval : Nat) (pending : Array (Frame g)) (r : Run α σ) : Outcome α :=
  if _nonempty : 0 < pending.size then
    let arrived := r.arrive interval
    let notified := arrived.notified
    match _step : (pending[pending.size - 1]).step (pending.size - 1) arrived with
    | .ok (children, next) => loop interval (pending.pop ++ children) next
    | .error e => ⟨notified, .error e⟩
  else ⟨r.notified, .ok ⟨r.placed, r.stats⟩⟩
termination_by potential pending
decreasing_by
  have hlt := potential_children_lt _step
  have hpop := potential_pop pending _nonempty
  rw [potential_append]
  omega

def evaluateFrom (g : Grammar α) (interval : Nat) (source : σ) : Outcome α :=
  match g.pick entryRule source with
  | .ok (i, source) => loop interval #[(⟨i, 0, 0, .identity⟩ : Frame g)] ({ source } : Run α σ)
  | .error e => ⟨#[], .error e⟩

end Loop

/-! ### Runs with a seed -/

def defaultInterval : Nat := 1000

structure Options where
  seed : UInt64 := 0
  interval : Nat := defaultInterval

def evaluate [Scalar α] (g : Grammar α) (options : Options) : Outcome α :=
  g.evaluateFrom options.interval (ChaCha.Generator.ofSeed options.seed)

/-- What a run with this seed reports: its start, every notice, and its end if it has one. -/
def Outcome.journal (seed : UInt64) (o : Outcome α) : List Record :=
  .debug s!"evaluating grammar with seed {seed.toNat}" ::
    (o.notified.toList.map fun n => .debug s!"{n} shapes so far") ++
    match o.result with
    | .ok e => [.debug e.summary]
    | .error _ => []

end ProceduralShapes.Grammar
