/-!
# White space and words

The white space of Unicode, the words that it separates, and the lines of a text.
-/

namespace ProceduralShapes.Text

/-- The ranges of code points with the property `White_Space`. -/
def blankRanges : List (Nat × Nat) :=
  [(0x0009, 0x000D), (0x0020, 0x0020), (0x0085, 0x0085), (0x00A0, 0x00A0), (0x1680, 0x1680),
   (0x2000, 0x200A), (0x2028, 0x2029), (0x202F, 0x202F), (0x205F, 0x205F), (0x3000, 0x3000)]

def isBlank (c : Char) : Bool := blankRanges.any fun (first, last) => first ≤ c.toNat && c.toNat ≤ last

def pieces (isSeparator : Char → Bool) (s : String) : List String :=
  ((s.toList.splitOnP isSeparator).filter fun cs => !cs.isEmpty).map String.ofList

def words (s : String) : List String := pieces isBlank s

def trimmed (s : String) : String :=
  String.ofList ((s.toList.dropWhile isBlank).reverse.dropWhile isBlank).reverse

/-- A line without a carriage return at its end. -/
def withoutReturn (cs : List Char) : List Char :=
  if cs.getLast? = some '\r' then cs.dropLast else cs

/-- The lines of a text. A line ends with a line feed, or with a carriage return and a line
feed; text behind the last line feed is a line too, unless it is empty. -/
def lines (s : String) : List String :=
  let cut := s.toList.splitOn '\n'
  (cut.dropLast.map withoutReturn ++ (cut.getLast?.filter (· ≠ [])).toList).map String.ofList

end ProceduralShapes.Text
