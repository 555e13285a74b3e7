/-!
# Events of a document

A document is a sequence of events: tags, text, and things that stand for themselves
(comments, instructions, declarations). Each begins at an angle bracket, or is the text up to
the next one. What stands inside a tag is not looked at here.
-/

namespace ProceduralShapes.Markup

/-- The blanks that may stand between the parts of a document. -/
def isSpace (c : Char) : Bool := c == ' ' || c == '\t' || c == '\n' || c == '\r'

structure Tag where
  name : String
  attributes : List Char
deriving DecidableEq, Repr

inductive Event
  | start (tag : Tag)
  | empty (tag : Tag)
  | stop (name : String)
  | text (raw : List Char)
  | cdata (raw : List Char)
  | aside
  | declaration
deriving DecidableEq, Repr

/-! ### Cutting -/

/-- The text before a delimiter and the text after it. -/
def cutAt (delimiter : List Char) : List Char → Option (List Char × List Char)
  | [] => none
  | c :: cs =>
    if delimiter.isPrefixOf (c :: cs) then some ([], (c :: cs).drop delimiter.length)
    else (cutAt delimiter cs).map fun (before, after) => (c :: before, after)

/-- The text before the bracket that ends a tag. Inside quotes no bracket does. -/
def cutTag : Option Char → List Char → Option (List Char × List Char)
  | _, [] => none
  | none, c :: cs =>
    if c = '>' then some ([], cs)
    else
      (cutTag (if c = '"' ∨ c = '\x27' then some c else none) cs).map fun (before, after) =>
        (c :: before, after)
  | some quote, c :: cs =>
    (cutTag (if c = quote then none else some quote) cs).map fun (before, after) =>
      (c :: before, after)

/-- The text before the bracket that ends a declaration, where brackets may be nested `depth`
deep. -/
def cutNested : Nat → List Char → Option (List Char × List Char)
  | _, [] => none
  | 0, '>' :: cs => some ([], cs)
  | depth + 1, '>' :: cs => (cutNested depth cs).map fun (before, after) => ('>' :: before, after)
  | depth, c :: cs =>
    (cutNested (if c = '<' then depth + 1 else depth) cs).map fun (before, after) =>
      (c :: before, after)

/-- The text after a word, in capitals, whatever the case of its letters. -/
def afterWord? (word cs : List Char) : Option (List Char) :=
  if (cs.take word.length).map Char.toUpper = word then some (cs.drop word.length) else none

/-! ### Tags -/

def startTag (content : List Char) : Event :=
  let closed := content.getLast? = some '/'
  let inner := if closed then content.dropLast else content
  let name := inner.takeWhile fun c => !isSpace c
  let tag : Tag := ⟨String.ofList name, inner.drop name.length⟩
  if closed then .empty tag else .start tag

/-- An end tag. Blanks may stand behind the name. Blanks alone are a name. -/
def endTag (content : List Char) : Event :=
  let name := (content.reverse.dropWhile isSpace).reverse
  .stop (String.ofList (if name.isEmpty then content else name))

/-! ### The next event -/

/-- What begins with `<!`: a comment, character data, or a declaration that is not empty. -/
def bang? : List Char → Option (Event × List Char)
  | '-' :: '-' :: cs => (cutAt "-->".toList cs).map fun (_, rest) => (.aside, rest)
  | '[' :: cs =>
    match afterWord? "CDATA[".toList cs with
    | some body => (cutAt "]]>".toList body).map fun (raw, rest) => (.cdata raw, rest)
    | none => none
  | cs =>
    match afterWord? "DOCTYPE".toList cs, cutNested 0 cs with
    | some _, some (content, rest) =>
      if (content.drop "DOCTYPE".length).all isSpace then none else some (.declaration, rest)
    | _, _ => none

/-- What begins with `<?`: an instruction, which ends with a question mark of its own. -/
def instruction? (cs : List Char) : Option (Event × List Char) :=
  match cutAt [('>')] cs with
  | some (content, rest) =>
    if 1 < content.length ∧ content.getLast? = some '?' then some (.aside, rest) else none
  | none => none

/-- An end tag. At the end of the text its bracket may be missing. -/
def stop (cs : List Char) : Event × List Char :=
  match cutAt [('>')] cs with
  | some (content, rest) => (endTag content, rest)
  | none => (endTag cs, [])

/-- What begins with an angle bracket, from the character after it on. -/
def markup? : List Char → Option (Event × List Char)
  | [] => none
  | '!' :: cs => bang? cs
  | '?' :: cs => instruction? cs
  | '/' :: cs => some (stop cs)
  | cs => (cutTag none cs).map fun (content, rest) => (startTag content, rest)

def next? : List Char → Option (Event × List Char)
  | [] => none
  | '<' :: cs => markup? cs
  | c :: cs => some (.text (c :: cs.takeWhile (· != '<')), cs.dropWhile (· != '<'))

end ProceduralShapes.Markup
