import ProceduralShapes.Obj

/-!
# Hosts

What a command needs of the system that it runs on: two channels to write to, and files. The
system can refuse to change a file or a directory, and then says why.
-/

namespace ProceduralShapes.Cli

class Host (m : Type → Type) where
  /-- A file that is open for writing. -/
  File : Type
  print : String → m Unit
  report : String → m Unit
  contents? : String → m (Option String)
  /-- Whether a path leads to a file or a directory. -/
  occupied : String → m Bool
  /-- Makes a directory and those on the way to it. -/
  makeDirectory : String → m (Except String Unit)
  /-- Opens an empty file, in the place of one that is there. -/
  create : String → m (Except String File)
  /-- Writes the lines of a document to a file. What was written may wait in a buffer. -/
  write : File → Obj Float → m (Except String Unit)
  /-- Writes out what waits in the buffer of a file. -/
  flush : File → m (Except String Unit)

end ProceduralShapes.Cli
