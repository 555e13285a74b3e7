/-!
# References

In the text of a document and in the values of attributes, a reference from an ampersand to a
semicolon stands for a character: five have names, and any other is given by its code point
in decimal digits or, after an `x`, in hexadecimal ones.
-/

namespace ProceduralShapes.Markup

def named? : String → Option Char
  | "lt" => some '<'
  | "gt" => some '>'
  | "amp" => some '&'
  | "apos" => some '\x27'
  | "quot" => some '"'
  | _ => none

def hexDigit? (c : Char) : Option Nat :=
  if c.isDigit then some (c.toNat - '0'.toNat)
  else if 'a' ≤ c ∧ c ≤ 'f' then some (c.toNat - 'a'.toNat + 10)
  else if 'A' ≤ c ∧ c ≤ 'F' then some (c.toNat - 'A'.toNat + 10)
  else none

def decimalDigit? (c : Char) : Option Nat := if c.isDigit then some (c.toNat - '0'.toNat) else none

/-- The number that at most `width` digits write in a base. -/
def code? (base width : Nat) (digit? : Char → Option Nat) (cs : List Char) : Option Nat :=
  if width < cs.length then none
  else (cs.mapM digit?).map (·.foldl (fun n d => base * n + d) 0)

/-- The character with a code point other than zero. -/
def charOfCode? (n : Nat) : Option Char :=
  if n ≠ 0 ∧ n.isValidChar then some (Char.ofNat n) else none

/-- The character that a reference stands for, given what is between ampersand and semicolon. -/
def character? : List Char → Option Char
  | '#' :: 'x' :: cs => (code? 16 6 hexDigit? cs).bind charOfCode?
  | '#' :: cs => (code? 10 7 decimalDigit? cs).bind charOfCode?
  | cs => named? (String.ofList cs)

/-- The text with its references replaced. There is none if an ampersand begins no reference. -/
def unescape? (cs : List Char) : Option (List Char) :=
  match cs with
  | [] => some []
  | c :: rest =>
    if c = '&' then
      let inside := rest.takeWhile fun d => d != ';' && d != '&'
      match rest.drop inside.length with
      | ';' :: _ =>
        match character? inside, unescape? (rest.drop (inside.length + 1)) with
        | some d, some ds => some (d :: ds)
        | _, _ => none
      | _ => none
    else (unescape? rest).map (c :: ·)
termination_by cs.length
decreasing_by
  · simp only [List.length_drop, List.length_cons]
    omega
  · simp

end ProceduralShapes.Markup
