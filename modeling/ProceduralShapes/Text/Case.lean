/-!
# Letter case

Names of built-in things are looked up without regard to the case of the letters A to Z.
Other letters are compared as they stand.
-/

namespace ProceduralShapes.Text

def lowered (s : String) : String := s.map Char.toLower

end ProceduralShapes.Text
