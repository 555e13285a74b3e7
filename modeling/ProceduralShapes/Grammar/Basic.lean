import ProceduralShapes.Grammar.Error
import ProceduralShapes.Random.Source
import ProceduralShapes.Text.Distance
import Std.Data.TreeMap

/-!
# Grammars

A grammar is a list of weighted variants of rules. Several variants may share a name, and
choosing a rule means choosing one of its variants by weight. An index lists, for every name,
the places of its variants in order.
-/

namespace ProceduralShapes

variable {α : Type}

inductive Action
  | call (rule : String)
  | place (shape : String)
deriving DecidableEq, Repr

/-- An action done `count` times, the transform applied anew before each. -/
structure Statement (α : Type) where
  action : Action
  transform : Transform α
  count : Nat := 1
deriving BEq

structure Variant (α : Type) where
  name : String
  weight : UInt32 := 1
  /-- A depth limit of its own; otherwise that of the grammar holds. -/
  maxDepth? : Option Nat := none
  /-- The rule to go on with where the depth limit is reached. -/
  successor? : Option String := none
  statements : List (Statement α) := []
deriving BEq

structure Grammar (α : Type) where
  maxDepth : Nat
  variants : Array (Variant α) := #[]
  index : Std.TreeMap String (Array Nat) := {}
  maxDepth_pos : 0 < maxDepth

def Statement.ofSpec [Scalar α] [Trig α] [Decimal.Numeral α] (action : Action) (spec : String)
    (count : Nat) : Except Spec.Error (Statement α) :=
  (Spec.transform spec).map fun t => ⟨action, t, count⟩

namespace Grammar

/-- The rule that every evaluation starts from. -/
def entryRule : String := "entry"

def ofMaxDepth (maxDepth : Nat) : Except LoadError (Grammar α) :=
  if h : 0 < maxDepth then .ok { maxDepth, maxDepth_pos := h } else .error .invalidMaxDepth

def add (g : Grammar α) (v : Variant α) : Grammar α :=
  { g with
    variants := g.variants.push v
    index := g.index.alter v.name fun is => some ((is.getD #[]).push g.variants.size) }

def ruleNames (g : Grammar α) : List String := g.index.keys

abbrev Ref (g : Grammar α) := Fin g.variants.size

def variant (g : Grammar α) (i : g.Ref) : Variant α := g.variants[i]

def named (g : Grammar α) (name : String) : List g.Ref :=
  (g.index.getD name #[]).toList.filterMap fun i =>
    if h : i < g.variants.size then some ⟨i, h⟩ else none

def weight (g : Grammar α) (i : g.Ref) : Nat := (g.variant i).weight.toNat

/-! ### Choosing a variant -/

/-- The greatest edit distance of a name that is suggested in place of another. -/
def suggestionDistance : Nat := 3

/-- The first of the names at the least distance, as long as that is small. -/
def closest? (name : String) (names : List String) : Option String :=
  let near := names.filterMap fun candidate =>
    let d := Text.distance name candidate
    if d ≤ suggestionDistance then some (d, candidate) else none
  (near.foldl (fun best c => match best with
    | none => some c
    | some b => if c.1 < b.1 then some c else some b) none).map (·.2)

section Picking
variable {σ : Type} [RandomSource σ]

/-- Chooses a variant of a name by weight, with one draw. The source is handed back in any case:
where no variant can be chosen, nothing has been drawn from it. -/
def pickFrom (g : Grammar α) (name : String) (source : σ) : Except PickError g.Ref × σ :=
  if g.index.contains name then
    let candidates := g.named name
    let total := total g.weight candidates
    if total = 0 then (.error (.noSelectableVariant name), source)
    else
      let (n, source) := RandomSource.below total source
      match Weighted.choose g.weight candidates n with
      | some i => (.ok i, source)
      | none => (.error (.noSelectableVariant name), source)
  else (.error (.noSuchRule name (closest? name g.ruleNames)), source)

/-- The variant chosen for a name with the source behind it. Where none can be chosen the source is
given up. -/
def pick (g : Grammar α) (name : String) (source : σ) : Except PickError (g.Ref × σ) :=
  match g.pickFrom name source with
  | (.ok i, source) => .ok (i, source)
  | (.error e, _) => .error e

theorem pick_eq (g : Grammar α) (name : String) (source : σ) :
    g.pick name source =
      if g.index.contains name then
        if total g.weight (g.named name) = 0 then .error (.noSelectableVariant name)
        else
          let drawn := RandomSource.below (total g.weight (g.named name)) source
          match Weighted.choose g.weight (g.named name) drawn.1 with
          | some i => .ok (i, drawn.2)
          | none => .error (.noSelectableVariant name)
      else .error (.noSuchRule name (closest? name g.ruleNames)) := by
  unfold pick pickFrom
  by_cases hname : g.index.contains name
  · by_cases hzero : total g.weight (g.named name) = 0
    · simp only [hname, hzero, if_true]
    · simp only [hname, hzero, if_true, if_false]
      cases Weighted.choose g.weight (g.named name)
        (RandomSource.below (total g.weight (g.named name)) source).1 with
      | some i => rfl
      | none => rfl
  · simp only [hname, Bool.false_eq_true, if_false]

end Picking

end Grammar

end ProceduralShapes
