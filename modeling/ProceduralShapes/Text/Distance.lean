/-!
# Edit distance

The least number of characters to insert, delete or replace to turn one text into another.
A row holds the distances from one beginning of the first text to every beginning of the
second; each further character of the first text gives the next row.
-/

namespace ProceduralShapes.Text

/-- The rest of the next row, given its entry on the left and the row above from the entry
before on. -/
def rowFrom (c : Char) : Nat → List Char → List Nat → List Nat
  | left, t :: ts, corner :: above :: row =>
    let entry := min (min (left + 1) (above + 1)) (corner + if c = t then 0 else 1)
    entry :: rowFrom c entry ts (above :: row)
  | _, _, _ => []

def nextRow (target : List Char) (row : List Nat) (c : Char) : List Nat :=
  let first := row.headD 0 + 1
  first :: rowFrom c first target row

def distance (s t : String) : Nat :=
  (s.toList.foldl (nextRow t.toList) (List.range (t.toList.length + 1))).getLastD 0

end ProceduralShapes.Text
