import ProceduralShapes.Cli.Perform
import ProceduralShapes.Decimal.Shortest

/-!
# The program

Carries out a command line on the system's own channels and files.
-/

namespace ProceduralShapes.Cli

/-- What comes of an act, or the system's words when it refuses. -/
def answer {β : Type} (act : IO β) : IO (Except String β) := do
  try return .ok (← act) catch e => return .error (toString e)

instance : Host IO where
  File := IO.FS.Handle
  print s := do (← IO.getStdout).putStr s
  report s := do (← IO.getStderr).putStr s
  contents? path := try some <$> IO.FS.readFile path catch _ => pure none
  occupied path := try let _ ← IO.FS.Handle.mk path .read; pure true catch _ => pure false
  makeDirectory path := answer (unless path.isEmpty do IO.FS.createDirAll path)
  create path := answer (IO.FS.Handle.mk path .write)
  write file document := answer (file.putStr (document.text Decimal.positional))
  flush file := answer file.flush

end ProceduralShapes.Cli

def main (args : List String) : IO UInt32 := ProceduralShapes.Cli.execute args
