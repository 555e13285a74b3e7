import ProceduralShapes.Markup.Event
import ProceduralShapes.Markup.Reference

/-!
# Passages of text

A passage is the text between two tags or declarations. Comments and instructions do not
divide it, so it comes in pieces: text as it is written, in which references stand for
characters, and character data, which stand for themselves.

A passage begins with its first character that is not a blank, and no blanks end its last
piece. Blanks of character data count like other characters.
-/

namespace ProceduralShapes.Markup

inductive Piece
  | written (raw : List Char)
  | verbatim (cs : List Char)
deriving DecidableEq, Repr

abbrev Passage := List Piece

/-- The characters of a piece. There are none if one of its references is not in order. -/
def Piece.value? : Piece → Option (List Char)
  | .written raw => unescape? raw
  | .verbatim cs => some cs

namespace Passage

/-- The passage from its first character on that is not a blank. -/
def trimmedStart : Passage → Passage
  | [] => []
  | .verbatim cs :: ps => .verbatim cs :: ps
  | .written raw :: ps =>
    match raw.dropWhile isSpace with
    | [] => trimmedStart ps
    | raw => .written raw :: ps

/-- The passage without the blanks at the end of its last piece. -/
def trimmedEnd : Passage → Passage
  | [] => []
  | [.written raw] => [.written (raw.reverse.dropWhile isSpace).reverse]
  | p :: ps => p :: trimmedEnd ps

def trimmed (ps : Passage) : Passage := ps.trimmedStart.trimmedEnd

/-- The text of a passage. There is none if one of its references is not in order. -/
def value? (ps : Passage) : Option String := (ps.mapM Piece.value?).map fun cs => String.ofList cs.flatten

def isSound (ps : Passage) : Bool := ps.value?.isSome

end Passage

end ProceduralShapes.Markup
