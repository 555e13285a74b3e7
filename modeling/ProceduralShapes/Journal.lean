/-!
# Journal

What an operation reports besides its answer: records of two levels of gravity, in order.
-/

namespace ProceduralShapes

inductive Level
  | debug
  | warn
deriving DecidableEq, Repr

structure Record where
  level : Level
  text : String
deriving DecidableEq, Repr

def Level.label : Level → String
  | .debug => "DEBUG"
  | .warn => "WARN"

namespace Record

def debug (text : String) : Record := ⟨.debug, text⟩

def warn (text : String) : Record := ⟨.warn, text⟩

def render (r : Record) : String := r.level.label ++ " " ++ r.text

end Record

end ProceduralShapes
