/-!
# Paths

A path is written with slashes between its pieces. Every piece is a step, but for empty pieces
and the piece `.`, which lead nowhere; the step `..` leads back. A path that ends with a piece
that leads nowhere is the path of a directory.
-/

namespace ProceduralShapes.Cli.Path

def separator : Char := '/'

/-- The step back to the directory that holds a directory. -/
def back : String := ".."

def pieces (path : String) : List (List Char) := path.toList.splitOn separator

/-- The piece leads nowhere. -/
def isIdle (piece : List Char) : Bool := piece == [] || piece == ['.']

def steps (path : String) : List String :=
  ((pieces path).filter fun piece => !isIdle piece).map String.ofList

def endsIdle (path : String) : Bool := (pieces path).getLast?.any isIdle

def join (directory name : String) : String :=
  if directory.isEmpty || directory.back == separator then directory ++ name
  else directory ++ separator.toString ++ name

/-- The path with these pieces. An empty piece alone is what stands in front of the root. -/
def ofPieces : List (List Char) → String
  | [[]] => separator.toString
  | pieces => String.ofList ([separator].intercalate pieces)

/-- Leaves out pieces that lead nowhere, but for the last of the list. -/
def dropIdle : List (List Char) → List (List Char)
  | piece :: next :: rest =>
    if isIdle piece then dropIdle (next :: rest) else piece :: next :: rest
  | pieces => pieces

/-- The path in front of the last step: the directory that holds a file. The empty path and the
root have none. -/
def parent? (path : String) : Option String :=
  match dropIdle (pieces path).reverse with
  | [] => none
  | [piece] => if piece.isEmpty then none else some ""
  | _ :: front => some (ofPieces (dropIdle front).reverse)

/-- The name that a path ends with, unless it leads nowhere or back. -/
def name? (path : String) : Option String := (steps path).getLast?.filter (· ≠ back)

/-- A name without its extension. A dot in front of everything begins no extension. -/
def stem (name : String) : String :=
  let before := ((name.toList.reverse.dropWhile (· ≠ '.')).drop 1).reverse
  if before.isEmpty then name else String.ofList before

end ProceduralShapes.Cli.Path
