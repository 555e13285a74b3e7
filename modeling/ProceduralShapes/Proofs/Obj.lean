import ProceduralShapes.Decimal.Literal
import ProceduralShapes.Obj
import ProceduralShapes.Proofs.Fallible
import ProceduralShapes.Proofs.Mesh.Weld
import ProceduralShapes.Proofs.Text.Lines
import ProceduralShapes.Proofs.Text.Numeral

/-!
# Reading an OBJ document back

A reader goes through a document line by line. It takes in the lines of vertices and of faces, whose
corners count from one, and passes over the others (`read`). If the text of every coordinate reads
back as the coordinate, then the document of a mesh reads back as the mesh (`read_text`).
-/

namespace ProceduralShapes.Obj

open Decimal (Numeral)
open Fallible

variable {α : Type}

/-! ### Reading -/

/- What a line says. -/
inductive Entry (α : Type)
  | vertex (p : Point α)
  | face (a b c : Nat)
  | other

namespace Entry

def vertexOf? [Numeral α] : List String → Option (Entry α)
  | [x, y, z] => do return .vertex ⟨← Numeral.read? x, ← Numeral.read? y, ← Numeral.read? z⟩
  | _ => none

def faceOf? : List String → Option (Entry α)
  | [a, b, c] => do
    return .face (← Text.natural? a.toList) (← Text.natural? b.toList) (← Text.natural? c.toList)
  | _ => none

/- A line is known by its first word. -/
def ofWords? [Numeral α] : List String → Option (Entry α)
  | [] => some .other
  | kind :: operands =>
    if kind = "v" then vertexOf? operands
    else if kind = "f" then faceOf? operands
    else some .other

/- A line that begins as that of a vertex or of a face, but is not one, is an error. -/
def read [Numeral α] (line : String) : Except String (Entry α) :=
  (ofWords? (Text.words line)).elim (.error line) .ok

def vertex? : Entry α → Option (Point α)
  | .vertex p => some p
  | _ => none

def face? : Entry α → Option (Nat × Nat × Nat)
  | .face a b c => some (a, b, c)
  | _ => none

end Entry

/- The vertices and the faces of a document, in order. -/
structure Reading (α : Type) where
  vertices : List (Point α)
  faces : List (Nat × Nat × Nat)

def Reading.ofEntries (es : List (Entry α)) : Reading α :=
  ⟨es.filterMap Entry.vertex?, es.filterMap Entry.face?⟩

def read [Numeral α] (s : String) : Except String (Reading α) :=
  ((Text.lines s).mapM Entry.read).map Reading.ofEntries

/- The mesh of a document, whose faces count the vertices from one. -/
def Reading.mesh (r : Reading α) : Mesh α :=
  ⟨r.vertices.toArray, (r.faces.map fun (a, b, c) => Face.ofIndices (a - 1) (b - 1) (c - 1)).toArray⟩

/- The numbers of the corners, counted from one. -/
def numbers (f : Face) : Nat × Nat × Nat := (f.a.toNat + 1, f.b.toNat + 1, f.c.toNat + 1)

def Reading.ofMesh (m : Mesh α) : Reading α := ⟨m.positions.toList, m.faces.toList.map numbers⟩

theorem mesh_ofMesh (m : Mesh α) : (Reading.ofMesh m).mesh = m := by
  have hface : (fun t : Nat × Nat × Nat => Face.ofIndices (t.1 - 1) (t.2.1 - 1) (t.2.2 - 1)) ∘
      numbers = id := by
    funext f
    simp [numbers, Face.ofIndices]
  simp only [Reading.mesh, Reading.ofMesh, List.map_map, hface, List.map_id, Array.toArray_toList]

/-! ### What is written -/

/- What a line says, as it is written. -/
def Entry.ofLine : Line α → Entry α
  | .comment _ => .other
  | .object _ => .other
  | .vertex p => .vertex p
  | .face a b c => .face a b c

theorem ofEntries_append (es es' : List (Entry α)) :
    Reading.ofEntries (es ++ es') =
      ⟨(Reading.ofEntries es).vertices ++ (Reading.ofEntries es').vertices,
        (Reading.ofEntries es).faces ++ (Reading.ofEntries es').faces⟩ := by
  rw [Reading.ofEntries, List.filterMap_append, List.filterMap_append]
  rfl

theorem ofEntries_vertices (ps : List (Point α)) :
    Reading.ofEntries (ps.map fun p => Entry.ofLine (.vertex p)) = ⟨ps, []⟩ := by
  rw [Reading.ofEntries, List.filterMap_map, List.filterMap_map, Reading.mk.injEq]
  exact ⟨List.filterMap_some, List.filterMap_eq_nil_iff.2 fun _ _ => rfl⟩

theorem ofEntries_faces (fs : List Face) :
    Reading.ofEntries (fs.map fun f => Entry.ofLine (Line.ofFace f : Line α)) =
      ⟨[], fs.map numbers⟩ := by
  rw [Reading.ofEntries, List.filterMap_map, List.filterMap_map, Reading.mk.injEq]
  exact ⟨List.filterMap_eq_nil_iff.2 fun _ _ => rfl,
    congrFun (List.filterMap_eq_map (f := numbers)) fs⟩

theorem ofEntries_lines (d : Obj α) :
    Reading.ofEntries (d.lines.map Entry.ofLine) = Reading.ofMesh d.mesh := by
  have hhead : ∀ es : List (Entry α),
      Reading.ofEntries (.other :: .other :: es) = Reading.ofEntries es := fun _ => rfl
  have hlines : d.lines.map Entry.ofLine = .other :: .other ::
      ((d.mesh.positions.toList.map fun p => Entry.ofLine (.vertex p)) ++
        d.mesh.faces.toList.map fun f => Entry.ofLine (Line.ofFace f)) := by
    simp only [lines, List.map_cons, List.map_append, List.map_map]
    rfl
  rw [hlines, hhead, ofEntries_append, ofEntries_vertices, ofEntries_faces]
  simp only [List.append_nil, List.nil_append, Reading.ofMesh]

/-! ### Lines -/

/- The text of the number is a word that reads as the number. -/
structure ReadsBack [Numeral α] (write : α → String) (x : α) : Prop where
  isWord : Text.IsWord Text.isBlank (write x).toList
  read_eq : Numeral.read? (write x) = some x

def coordinates (p : Point α) : List α := [p.x, p.y, p.z]

section Lines
variable {write : α → String}

theorem words_comment (text : String) :
    Text.words ((Line.comment text : Line α).render write) = "#" :: Text.words text := by
  have hlead : "# " = "#" ++ " " := rfl
  rw [Line.render, hlead]
  exact Text.IsWord.words_append (Text.isWord_of_all rfl) text

theorem words_object (name : String) :
    Text.words ((Line.object name : Line α).render write) = "o" :: Text.words name := by
  have hlead : "o " = "o" ++ " " := rfl
  rw [Line.render, hlead]
  exact Text.IsWord.words_append (Text.isWord_of_all rfl) name

theorem words_vertex {p : Point α}
    (h : ∀ x ∈ coordinates p, Text.IsWord Text.isBlank (write x).toList) :
    Text.words ((Line.vertex p).render write) = ["v", write p.x, write p.y, write p.z] := by
  have hlead : "v " = "v" ++ " " := rfl
  have hkind : Text.IsWord Text.isBlank "v".toList := Text.isWord_of_all rfl
  simp only [coordinates, List.forall_mem_cons] at h
  obtain ⟨hx, hy, hz, -⟩ := h
  rw [Line.render, hlead, Text.words_append, Text.words_append, hkind.words_append, hx.words_eq,
    hy.words_eq, hz.words_eq]
  rfl

theorem words_face (a b c : Nat) :
    Text.words ((Line.face a b c : Line α).render write) =
      ["f", toString a, toString b, toString c] := by
  have hlead : "f " = "f" ++ " " := rfl
  have hkind : Text.IsWord Text.isBlank "f".toList := Text.isWord_of_all rfl
  rw [Line.render, hlead, Text.words_append, Text.words_append, hkind.words_append,
    (Text.isWord_toString a).words_eq, (Text.isWord_toString b).words_eq,
    (Text.isWord_toString c).words_eq]
  rfl

variable [Numeral α]

/- The line can be told apart from the next, and its numbers read back. -/
def Line.Legible (write : α → String) : Line α → Prop
  | .comment text => '\n' ∉ text.toList
  | .object name => '\n' ∉ name.toList
  | .vertex p => ∀ x ∈ coordinates p, ReadsBack write x
  | .face _ _ _ => True

theorem Line.Legible.not_mem {l : Line α} (h : l.Legible write) :
    '\n' ∉ (l.render write).toList := by
  have hplain : ∀ {w : List Char}, Text.IsWord Text.isBlank w → '\n' ∉ w := by
    intro w hw hmem
    exact absurd (hw.plain _ hmem) (by decide)
  cases l with
  | comment text =>
    have hlead : '\n' ∉ "# ".toList := by decide
    simpa [Line.render, hlead, Line.Legible] using h
  | object name =>
    have hlead : '\n' ∉ "o ".toList := by decide
    simpa [Line.render, hlead, Line.Legible] using h
  | vertex p =>
    have hwords : ∀ x ∈ coordinates p, '\n' ∉ (write x).toList := fun x hx => hplain (h x hx).isWord
    simp only [coordinates, List.forall_mem_cons] at hwords
    obtain ⟨hx, hy, hz, -⟩ := hwords
    simp [Line.render, hx, hy, hz]
  | face a b c =>
    have hdigits : ∀ n : Nat, '\n' ∉ Nat.toDigits 10 n := fun n => hplain (Text.isWord_toDigits n)
    simp [Line.render, hdigits]

theorem read_line {l : Line α} (h : l.Legible write) :
    Entry.read (Text.asLine (l.render write)) = .ok (Entry.ofLine l) := by
  rw [Entry.read, Text.words_asLine]
  cases l with
  | comment text =>
    rw [words_comment]
    rfl
  | object name =>
    rw [words_object]
    rfl
  | vertex p =>
    rw [words_vertex fun x hx => (h x hx).isWord]
    simp only [Line.Legible, coordinates, List.forall_mem_cons] at h
    obtain ⟨hx, hy, hz, -⟩ := h
    simp [Entry.ofWords?, Entry.vertexOf?, hx.read_eq, hy.read_eq, hz.read_eq, Entry.ofLine]
  | face a b c =>
    rw [words_face]
    simp [Entry.ofWords?, Entry.faceOf?, Entry.ofLine]

/-! ### Documents -/

/- The name is on one line, and the coordinates read back. -/
structure Legible (write : α → String) (d : Obj α) : Prop where
  name_line : '\n' ∉ d.name.toList
  coordinates : ∀ p ∈ d.mesh.positions, ∀ x ∈ coordinates p, ReadsBack write x

theorem Legible.line {d : Obj α} (h : d.Legible write) : ∀ l ∈ d.lines, l.Legible write := by
  intro l hl
  simp only [lines, List.mem_cons, List.mem_append, List.mem_map, Array.mem_toList_iff] at hl
  rcases hl with rfl | rfl | ⟨p, hp, rfl⟩ | ⟨f, -, rfl⟩
  · have hproducer : '\n' ∉ producer.toList := by decide
    exact hproducer
  · exact h.name_line
  · exact h.coordinates p hp
  · trivial

theorem lines_text {d : Obj α} (h : d.Legible write) :
    Text.lines (d.text write) = (d.lines.map (Line.render write)).map Text.asLine := by
  have hplain : ∀ s ∈ d.lines.map (Line.render write), '\n' ∉ s.toList := by
    intro s hs
    obtain ⟨l, hl, rfl⟩ := List.mem_map.1 hs
    exact (h.line l hl).not_mem
  have hends : (d.lines.map fun l => l.render write ++ "\n") =
      (d.lines.map (Line.render write)).map (· ++ "\n") := by
    rw [List.map_map]
    rfl
  rw [text, hends, Text.lines_join hplain]

/- What is read back is the mesh, with its vertices and its faces in order. -/
theorem read_text {d : Obj α} (h : d.Legible write) :
    read (d.text write) = .ok (Reading.ofMesh d.mesh) := by
  have hread : ∀ l ∈ d.lines,
      (Entry.read ∘ Text.asLine ∘ Line.render write) l = .ok (Entry.ofLine l) := by
    intro l hl
    simp only [Function.comp_apply, read_line (h.line l hl)]
  rw [read, lines_text h, List.map_map, List.mapM_map, mapM_of_forall_ok hread,
    ← ofEntries_lines]
  rfl

end Lines

/-! ### Valid meshes -/

theorem isFinite_of_coordinates [Finiteness α] {p : Point α} (h : p.isFinite) :
    ∀ x ∈ coordinates p, isFinite x := by
  simp only [Point.isFinite, Bool.and_eq_true] at h
  simpa [coordinates, and_assoc] using h

/- The numbers of the corners that are read are those of vertices. -/
theorem Reading.within_ofMesh {m : Mesh α} (h : ∀ f ∈ m.faces, f.within m.vertexCount) :
    ∀ t ∈ (Reading.ofMesh m).faces, ∀ i ∈ [t.1, t.2.1, t.2.2],
      1 ≤ i ∧ i ≤ (Reading.ofMesh m).vertices.length := by
  have hlength : (Reading.ofMesh m).vertices.length = m.vertexCount := Array.length_toList
  rw [hlength]
  intro t ht
  obtain ⟨f, hf, rfl⟩ := List.mem_map.1 ht
  obtain ⟨ha, hb, hc⟩ := Face.within_iff.1 (h f (Array.mem_toList_iff.1 hf))
  simp only [numbers, List.forall_mem_cons, List.not_mem_nil, false_implies, implies_true, and_true]
  omega

/- A corner is moved up to count from one without leaving its 32 bits. -/
theorem toNat_add_one {n : Nat} {f : Face} (hf : f.within n) (hn : n < UInt32.size) :
    ∀ c ∈ f.corners, (c + 1).toNat = c.toNat + 1 := by
  have hone : ∀ c : UInt32, c.toNat < n → (c + 1).toNat = c.toNat + 1 := by
    intro c hc
    rw [UInt32.toNat_add]
    exact Nat.mod_eq_of_lt (show c.toNat + 1 < UInt32.size by omega)
  obtain ⟨ha, hb, hc⟩ := Face.within_iff.1 hf
  simp only [Face.corners, List.forall_mem_cons]
  exact ⟨hone _ ha, hone _ hb, hone _ hc, by simp⟩

end ProceduralShapes.Obj
