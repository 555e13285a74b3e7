import ProceduralShapes.Markup.Element
import ProceduralShapes.Markup.Reference

/-!
# Attributes

The attributes of a tag are pairs of a name and a quoted value with an equals sign between
them. No name may occur twice. Values are kept as they are written.

Every attribute takes a part of the text away (`attribute?_length_lt`).
-/

namespace ProceduralShapes.Markup

abbrev Attribute := String × List Char

/-- The value within the quotes that the text begins with, and what follows it. -/
def quoted? : List Char → Option (List Char × List Char)
  | c :: cs => if c = '"' ∨ c = '\x27' then cutAt [c] cs else none
  | [] => none

/-- What the name of an attribute goes on with. -/
def isNamePart (c : Char) : Bool := c != '=' && !isSpace c

/-- The attribute that a text begins with, and what follows it. The first character belongs
to the name, whichever it is. -/
def attribute? : List Char → Option (Attribute × List Char)
  | [] => none
  | c :: cs =>
    match (cs.dropWhile isNamePart).dropWhile isSpace with
    | '=' :: rest =>
      (quoted? (rest.dropWhile isSpace)).map fun (value, rest) =>
        ((String.ofList (c :: cs.takeWhile isNamePart), value), rest)
    | _ => none

theorem dropWhile_length_le (p : Char → Bool) (cs : List Char) :
    (cs.dropWhile p).length ≤ cs.length := (List.dropWhile_suffix p).length_le

theorem quoted?_length_le {cs value rest : List Char} (h : quoted? cs = some (value, rest)) :
    rest.length ≤ cs.length := by
  unfold quoted? at h
  split at h
  · split at h
    · exact Nat.le_succ_of_le (cutAt_length_le h)
    · cases h
  · cases h

theorem attribute?_length_lt {cs rest : List Char} {a : Attribute}
    (h : attribute? cs = some (a, rest)) : rest.length < cs.length := by
  unfold attribute? at h
  split at h
  · cases h
  · rename_i c cs
    split at h
    · rename_i tail hdrop
      obtain ⟨⟨v, r⟩, hq, heq⟩ := Option.map_eq_some_iff.1 h
      cases heq
      have h₁ := quoted?_length_le hq
      have h₂ := dropWhile_length_le isSpace tail
      have h₃ := dropWhile_length_le isSpace (cs.dropWhile isNamePart)
      have h₄ := dropWhile_length_le isNamePart cs
      rw [hdrop] at h₃
      simp only [List.length_cons] at h₃ ⊢
      omega
    · cases h

def attributes? (cs : List Char) : Option (List Attribute) :=
  match _next : cs.dropWhile isSpace with
  | [] => some []
  | c :: rest =>
    match _attribute : attribute? (c :: rest) with
    | some (a, tail) => (attributes? tail).map (a :: ·)
    | none => none
termination_by cs.length
decreasing_by
  have h₁ := attribute?_length_lt _attribute
  have h₂ := dropWhile_length_le isSpace cs
  rw [_next] at h₂
  omega

/-- The attributes of a tag, if all of them are well formed and differ in name. -/
def Tag.attributes? (t : Tag) : Option (List Attribute) :=
  (Markup.attributes? t.attributes).filter fun as => (as.map (·.1)).Nodup

/-- The part of an attribute's name that tells what it is. A declaration of a namespace keeps
its whole name. -/
def attributeName (name : String) : String :=
  if name = "xmlns" ∨ "xmlns:".toList.isPrefixOf name.toList then name else localName name

end ProceduralShapes.Markup
