import ProceduralShapes.Markup.Event
import ProceduralShapes.Markup.Passage

/-!
# Elements

A document holds one element with its content: other elements and passages of text. Every
start tag has its end tag. What comes after the end of the outermost element is not looked at.

Where the text stops being markup, or an end tag names another element than the innermost one
that is open, the document breaks off. The elements open there keep what they hold but are not
whole.

Every event takes a part of the text away (`next?_length_lt`), so reading comes to an end.
-/

namespace ProceduralShapes.Markup

/-- A part of a document. Asides, declarations and blank passages are left out. -/
inductive Node
  /-- An element is whole if it has its end tag. -/
  | element (tag : Tag) (content : List Node) (whole : Bool)
  | text (passage : Passage)

/-! ### Events are not empty -/

theorem cutAt_length_le {delimiter cs before after : List Char}
    (h : cutAt delimiter cs = some (before, after)) : after.length ≤ cs.length := by
  induction cs generalizing before with
  | nil => simp [cutAt] at h
  | cons c cs ih =>
    rw [cutAt] at h
    split at h
    · cases h
      simp only [List.length_drop]
      omega
    · obtain ⟨⟨b, a⟩, hcut, heq⟩ := Option.map_eq_some_iff.1 h
      cases heq
      exact Nat.le_succ_of_le (ih hcut)

theorem cutTag_length_le {quote : Option Char} {cs before after : List Char}
    (h : cutTag quote cs = some (before, after)) : after.length ≤ cs.length := by
  induction cs generalizing quote before with
  | nil => cases quote <;> simp [cutTag] at h
  | cons c cs ih =>
    cases quote with
    | none =>
      rw [cutTag] at h
      split at h
      · cases h
        simp
      · obtain ⟨⟨b, a⟩, hcut, heq⟩ := Option.map_eq_some_iff.1 h
        cases heq
        exact Nat.le_succ_of_le (ih hcut)
    | some q =>
      rw [cutTag] at h
      obtain ⟨⟨b, a⟩, hcut, heq⟩ := Option.map_eq_some_iff.1 h
      cases heq
      exact Nat.le_succ_of_le (ih hcut)

theorem cutNested_length_le {depth : Nat} {cs before after : List Char}
    (h : cutNested depth cs = some (before, after)) : after.length ≤ cs.length := by
  fun_induction cutNested depth cs generalizing before with
  | case1 => cases h
  | case2 => cases h; simp
  | case3 depth cs ih =>
    obtain ⟨⟨b, a⟩, hcut, heq⟩ := Option.map_eq_some_iff.1 h
    cases heq
    exact Nat.le_succ_of_le (ih hcut)
  | case4 depth c cs _ _ ih =>
    obtain ⟨⟨b, a⟩, hcut, heq⟩ := Option.map_eq_some_iff.1 h
    cases heq
    exact Nat.le_succ_of_le (ih hcut)

theorem afterWord?_length_le {word cs rest : List Char} (h : afterWord? word cs = some rest) :
    rest.length ≤ cs.length := by
  unfold afterWord? at h
  split at h
  · cases h
    simp only [List.length_drop]
    omega
  · cases h

theorem bang?_length_le {cs rest : List Char} {e : Event} (h : bang? cs = some (e, rest)) :
    rest.length ≤ cs.length := by
  unfold bang? at h
  split at h
  · obtain ⟨⟨b, a⟩, hcut, heq⟩ := Option.map_eq_some_iff.1 h
    cases heq
    have := cutAt_length_le hcut
    simp only [List.length_cons]
    omega
  · split at h
    · rename_i hword
      obtain ⟨⟨b, a⟩, hcut, heq⟩ := Option.map_eq_some_iff.1 h
      cases heq
      have := cutAt_length_le hcut
      have := afterWord?_length_le hword
      simp only [List.length_cons]
      omega
    · cases h
  · split at h
    · rename_i hcut
      split at h
      · cases h
      · cases h
        exact cutNested_length_le hcut
    · cases h

theorem instruction?_length_le {cs rest : List Char} {e : Event}
    (h : instruction? cs = some (e, rest)) : rest.length ≤ cs.length := by
  unfold instruction? at h
  split at h
  · rename_i hcut
    split at h
    · cases h
      exact cutAt_length_le hcut
    · cases h
  · cases h

theorem stop_length_le (cs : List Char) : (stop cs).2.length ≤ cs.length := by
  unfold stop
  split
  · rename_i hcut
    exact cutAt_length_le hcut
  · simp

theorem markup?_length_le {cs rest : List Char} {e : Event} (h : markup? cs = some (e, rest)) :
    rest.length ≤ cs.length := by
  unfold markup? at h
  split at h
  · cases h
  · exact Nat.le_succ_of_le (bang?_length_le h)
  · exact Nat.le_succ_of_le (instruction?_length_le h)
  · rename_i cs
    have hle := stop_length_le cs
    rw [Option.some.inj h] at hle
    exact Nat.le_succ_of_le hle
  · obtain ⟨⟨b, a⟩, hcut, heq⟩ := Option.map_eq_some_iff.1 h
    cases heq
    exact cutTag_length_le hcut

theorem next?_length_lt {cs rest : List Char} {e : Event} (h : next? cs = some (e, rest)) :
    rest.length < cs.length := by
  unfold next? at h
  split at h
  · cases h
  · exact Nat.lt_succ_of_le (markup?_length_le h)
  · cases h
    exact Nat.lt_succ_of_le (List.dropWhile_suffix _).length_le

/-! ### Reading an element -/

/-- An element whose end tag is still to come, with what it holds so far: its parts, and the
pieces of the passage that may still go on. The last comes first in both. -/
structure Open where
  tag : Tag
  content : List Node
  pieces : Passage

def Open.ofTag (tag : Tag) : Open := ⟨tag, [], []⟩

def Open.addPiece (o : Open) (p : Piece) : Open := { o with pieces := p :: o.pieces }

/-- Ends the passage, which is left out if it is blank. -/
def Open.endPassage (o : Open) : Open :=
  match Passage.trimmed o.pieces.reverse with
  | [] => { o with pieces := [] }
  | ps => { o with content := .text ps :: o.content, pieces := [] }

/-- An element behind the parts read so far. -/
def Open.add (o : Open) (n : Node) : Open := { o.endPassage with content := n :: o.endPassage.content }

def Open.close (o : Open) (whole : Bool) : Node :=
  .element o.tag o.endPassage.content.reverse whole

/-- The outermost of the open elements, the innermost given apart, where the document breaks off. -/
def Open.breakOff (inner : Open) (outer : List Open) : Node :=
  outer.foldl (fun n parent => (parent.add n).close false) (inner.close false)

/-- Reads up to the end of the outermost of the open elements, the innermost given apart. -/
def close (inner : Open) (outer : List Open) (cs : List Char) : Node :=
  match _next : next? cs with
  | none => inner.breakOff outer
  | some (.start tag, rest) => close (.ofTag tag) (inner :: outer) rest
  | some (.empty tag, rest) => close (inner.add (.element tag [] true)) outer rest
  | some (.stop name, rest) =>
    if name = inner.tag.name then
      match outer with
      | [] => inner.close true
      | parent :: outer => close (parent.add (inner.close true)) outer rest
    else inner.breakOff outer
  | some (.text raw, rest) => close (inner.addPiece (.written raw)) outer rest
  | some (.cdata raw, rest) => close (inner.addPiece (.verbatim raw)) outer rest
  | some (.aside, rest) => close inner outer rest
  | some (.declaration, rest) => close inner.endPassage outer rest
termination_by cs.length
decreasing_by all_goals exact next?_length_lt _next

/-- The outermost element of a document. Only blanks, asides and declarations may stand before
it. -/
def element? (cs : List Char) : Option Node :=
  match _next : next? cs with
  | some (.start tag, rest) => some (close (.ofTag tag) [] rest)
  | some (.empty tag, _) => some (.element tag [] true)
  | some (.text raw, rest) => if raw.all isSpace then element? rest else none
  | some (.aside, rest) | some (.declaration, rest) => element? rest
  | some (.stop _, _) | some (.cdata _, _) | none => none
termination_by cs.length
decreasing_by all_goals exact next?_length_lt _next

/-- The outermost element of a text, which may begin with a byte order mark. -/
def document? (s : String) : Option Node :=
  match s.toList with
  | '\uFEFF' :: cs => element? cs
  | cs => element? cs

/-! ### Names -/

/-- A name without its namespace: what follows the first colon. -/
def localName (name : String) : String :=
  match cutAt [(':')] name.toList with
  | some (_, rest) => String.ofList rest
  | none => name

end ProceduralShapes.Markup
