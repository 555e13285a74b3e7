import ProceduralShapes.Cli.Perform
import ProceduralShapes.Proofs.Cli.Disk
import ProceduralShapes.Proofs.Obj

/-!
# Keeping a document

A document is stored if its mesh is valid, its place may be taken and the disk admits it
(`store_eq_ok_iff`, `Disk.Admits`). Then it is found again at its path and reads back as its mesh.
Where the mesh is not valid, or the path is taken and may not be overwritten, nothing is touched.
-/

namespace ProceduralShapes.Cli

open Decimal (Numeral)

/-! ### Work on a session -/

section Session
variable {β γ ε : Type} {s s' : Session}

/- What the work results in, and the session behind it. -/
def carryOut (work : ExceptT Failure (StateM Session) β) (s : Session) :
    Except Failure β × Session := Id.run (work.run.run s)

theorem carryOut_fail (f : Failure) :
    carryOut (fail f : ExceptT Failure (StateM Session) β) s = (.error f, s) := rfl

theorem carryOut_ok_bind (failure : ε → Failure) (b : β)
    (f : β → ExceptT Failure (StateM Session) γ) :
    carryOut (attempt failure (.ok b) >>= f) s = carryOut (f b) s := rfl

theorem carryOut_error_bind (failure : ε → Failure) (e : ε)
    (f : β → ExceptT Failure (StateM Session) γ) :
    carryOut (attempt failure (.error e) >>= f) s = (.error (failure e), s) := rfl

theorem carryOut_occupied_bind (path : String)
    (f : Bool → ExceptT Failure (StateM Session) γ) :
    carryOut (ExceptT.lift (Host.occupied path) >>= f) s = carryOut (f (s.disk.occupied path)) s :=
  rfl

theorem carryOut_request (failure : String → Failure) (work : Disk → Except String β × Disk) :
    carryOut (request failure (Session.onDisk work)) s =
      ((work s.disk).1.mapError failure, { s with disk := (work s.disk).2 }) := rfl

theorem carryOut_request_bind (failure : String → Failure) (work : Disk → Except String β × Disk)
    (f : β → ExceptT Failure (StateM Session) γ) :
    carryOut (request failure (Session.onDisk work) >>= f) s =
      carryOut (attempt failure (work s.disk).1 >>= f) { s with disk := (work s.disk).2 } := rfl

/- Work is done if the disk grants what is asked of it. -/
theorem carryOut_request_eq_ok_iff {failure : String → Failure}
    {work : Disk → Except String β × Disk} {b : β} :
    carryOut (request failure (Session.onDisk work)) s = (.ok b, s') ↔
      ∃ disk, work s.disk = (.ok b, disk) ∧ s' = { s with disk } := by
  rw [carryOut_request, Prod.mk.injEq, Fallible.mapError_eq_ok_iff]
  constructor
  · rintro ⟨hanswer, rfl⟩
    exact ⟨_, Prod.ext hanswer rfl, rfl⟩
  · rintro ⟨disk, hwork, rfl⟩
    rw [hwork]
    exact ⟨rfl, rfl⟩

theorem carryOut_request_bind_eq_ok_iff {failure : String → Failure}
    {work : Disk → Except String β × Disk} {f : β → ExceptT Failure (StateM Session) γ} {c : γ} :
    carryOut (request failure (Session.onDisk work) >>= f) s = (.ok c, s') ↔
      ∃ b disk, work s.disk = (.ok b, disk) ∧ carryOut (f b) { s with disk } = (.ok c, s') := by
  rw [carryOut_request_bind]
  constructor
  · cases hanswer : (work s.disk).1 with
    | error reason =>
      rw [carryOut_error_bind]
      intro h
      cases h
    | ok b => exact fun h => ⟨b, _, Prod.ext hanswer rfl, h⟩
  · rintro ⟨b, disk, hwork, h⟩
    rw [hwork]
    exact h

theorem carryOut_makeParent_bind_eq_ok_iff {path : String}
    {f : Unit → ExceptT Failure (StateM Session) γ} {c : γ} :
    carryOut (makeParent path >>= f) s = (.ok c, s') ↔
      ∃ disk, s.disk.makeParent path = (.ok (), disk) ∧
        carryOut (f ()) { s with disk } = (.ok c, s') := by
  unfold makeParent Disk.makeParent
  cases Path.parent? path with
  | none =>
    constructor
    · exact fun h => ⟨s.disk, rfl, h⟩
    · rintro ⟨disk, hsame, h⟩
      cases hsame
      exact h
  | some parent =>
    refine carryOut_request_bind_eq_ok_iff.trans ⟨?_, ?_⟩
    · rintro ⟨⟨⟩, disk, h⟩
      exact ⟨disk, h⟩
    · rintro ⟨disk, h⟩
      exact ⟨(), disk, h⟩

end Session

/-! ### Storing -/

section Store
variable {session later : Session} {path : String} {d : Obj Float} {overwrite : Bool}

theorem store_of_defect {defect : Mesh.Defect} (h : d.mesh.validate = .error defect) :
    carryOut (store path d overwrite) session = (.error (.invalidMesh defect), session) := by
  rw [store, h, carryOut_error_bind]

theorem store_of_occupied (h : d.mesh.validate = .ok ())
    (htaken : (session.disk.occupied path && !overwrite) = true) :
    carryOut (store path d overwrite) session = (.error (.occupied path), session) := by
  rw [store, h, carryOut_ok_bind, carryOut_occupied_bind, if_pos htaken, carryOut_fail]

theorem store_refused (htaken : session.disk.occupied path = true) :
    ∃ failure, carryOut (store path d false) session = (.error failure, session) := by
  cases hvalid : d.mesh.validate with
  | error defect => exact ⟨_, store_of_defect hvalid⟩
  | ok u => exact ⟨_, store_of_occupied hvalid (by rw [htaken]; rfl)⟩

/- A document is stored exactly if its mesh is valid, its place may be taken, and the disk keeps
it. -/
theorem store_eq_ok_iff : carryOut (store path d overwrite) session = (.ok (), later) ↔
    d.mesh.validate = .ok () ∧ (session.disk.occupied path = true → overwrite = true) ∧
      ∃ disk, session.disk.Keeps path d disk ∧ later = { session with disk } := by
  cases hvalid : d.mesh.validate with
  | error defect => simp [store_of_defect hvalid]
  | ok u =>
    by_cases htaken : (session.disk.occupied path && !overwrite) = true
    · rw [store_of_occupied hvalid htaken]
      simp_all
    · have hfree : session.disk.occupied path = true → overwrite = true := by simpa using htaken
      rw [store, hvalid, carryOut_ok_bind, carryOut_occupied_bind, if_neg htaken]
      constructor
      · intro h
        obtain ⟨made, hmade, h⟩ := carryOut_makeParent_bind_eq_ok_iff.1 h
        obtain ⟨p, opened, hcreate, h⟩ := carryOut_request_bind_eq_ok_iff.1 h
        obtain ⟨⟨⟩, written, hwrite, h⟩ := carryOut_request_bind_eq_ok_iff.1 h
        obtain ⟨kept, hflush, rfl⟩ := carryOut_request_eq_ok_iff.1 h
        exact ⟨rfl, hfree, kept, ⟨made, p, opened, written, hmade, hcreate, hwrite, hflush⟩, rfl⟩
      · rintro ⟨-, -, kept, ⟨made, p, opened, written, hmade, hcreate, hwrite, hflush⟩, rfl⟩
        refine carryOut_makeParent_bind_eq_ok_iff.2 ⟨made, hmade, ?_⟩
        refine carryOut_request_bind_eq_ok_iff.2 ⟨p, opened, hcreate, ?_⟩
        refine carryOut_request_bind_eq_ok_iff.2 ⟨(), written, hwrite, ?_⟩
        exact carryOut_request_eq_ok_iff.2 ⟨kept, hflush, rfl⟩

theorem exists_store_iff (h : d.mesh.validate = .ok ()) :
    (∃ later, carryOut (store path d overwrite) session = (.ok (), later)) ↔
      (session.disk.occupied path = true → overwrite = true) ∧ session.disk.Admits path := by
  constructor
  · rintro ⟨later, hstore⟩
    obtain ⟨-, hfree, disk, hkeeps, -⟩ := store_eq_ok_iff.1 hstore
    exact ⟨hfree, Disk.admits_of_keeps hkeeps⟩
  · rintro ⟨hfree, hadmits⟩
    obtain ⟨disk, hkeeps⟩ := Disk.exists_keeps hadmits d
    exact ⟨_, store_eq_ok_iff.2 ⟨h, hfree, disk, hkeeps, rfl⟩⟩

end Store

/-! ### What is kept -/

/- A document that can be kept whole: its mesh is valid, and the vertices are counted in 32 bits;
its name is on one line; and where one of its coordinates is finite, the printed number reads
back. -/
structure Sound (d : Obj Float) : Prop where
  valid : d.mesh.validate = .ok ()
  vertexCount_lt : d.mesh.vertexCount < UInt32.size
  name_line : '\n' ∉ d.name.toList
  prints : ∀ p ∈ d.mesh.positions, ∀ x ∈ Obj.coordinates p, isFinite x →
    Numeral.read? (Decimal.positional x) = some x

theorem Sound.legible {d : Obj Float} (h : Sound d) : d.Legible Decimal.positional := by
  obtain ⟨hfinite, -⟩ := Mesh.validate_eq_ok_iff.1 h.valid
  refine ⟨h.name_line, ?_⟩
  intro p hp x hx
  have hx' := Obj.isFinite_of_coordinates (hfinite p hp) x hx
  exact ⟨Decimal.isWord_positional x, h.prints p hp x hx hx'⟩

theorem Sound.read_text {d : Obj Float} (h : Sound d) :
    Obj.read (d.text Decimal.positional) = .ok (Obj.Reading.ofMesh d.mesh) :=
  Obj.read_text h.legible

theorem Sound.mesh_inj {d d' : Obj Float} (h : Sound d) (h' : Sound d')
    (htext : d.text Decimal.positional = d'.text Decimal.positional) : d.mesh = d'.mesh := by
  have hread := h.read_text
  rw [htext, h'.read_text] at hread
  have hmesh := congrArg Obj.Reading.mesh (Except.ok.inj hread)
  rwa [Obj.mesh_ofMesh, Obj.mesh_ofMesh, eq_comm] at hmesh

/- A sound document that is stored is what its file holds. Read back line by line this gives the
positions and the faces of the mesh in order, with every number of a corner between 1 and the number
of vertices, and counting from one never leaves the 32 bits. So the text tells the mesh. Storing
succeeds exactly if the place is free or may be overwritten, and the disk refuses no step. A mesh
that is not valid is refused, and so is a place that is taken and may not be overwritten; then
nothing has changed. -/
theorem store_faithful (session : Session) (path : String) (d : Obj Float) (overwrite : Bool) :
    (Sound d → ∀ later, carryOut (store path d overwrite) session = (.ok (), later) →
      ∃ r : Obj.Reading Float,
        later.disk.contents? path = some (d.text Decimal.positional) ∧
        Obj.read (d.text Decimal.positional) = .ok r ∧
        r.vertices = d.mesh.positions.toList ∧ r.faces = d.mesh.faces.toList.map Obj.numbers ∧
        (∀ t ∈ r.faces, ∀ i ∈ [t.1, t.2.1, t.2.2], 1 ≤ i ∧ i ≤ r.vertices.length) ∧
        ∀ f ∈ d.mesh.faces, ∀ c ∈ f.corners, (c + 1).toNat = c.toNat + 1) ∧
    (Sound d → ((∃ later, carryOut (store path d overwrite) session = (.ok (), later)) ↔
      (session.disk.occupied path = true → overwrite = true) ∧ session.disk.Admits path)) ∧
    (∀ d' : Obj Float, Sound d → Sound d' →
      d.text Decimal.positional = d'.text Decimal.positional → d.mesh = d'.mesh) ∧
    (∀ defect, d.mesh.validate = .error defect →
      carryOut (store path d overwrite) session = (.error (.invalidMesh defect), session)) ∧
    (session.disk.occupied path = true → overwrite = false →
      ∃ failure, carryOut (store path d overwrite) session = (.error failure, session)) := by
  refine ⟨?_, fun h => exists_store_iff h.valid, fun d' h h' => h.mesh_inj h',
    fun defect => store_of_defect, ?_⟩
  · intro h later hstore
    obtain ⟨-, hwithin⟩ := Mesh.validate_eq_ok_iff.1 h.valid
    obtain ⟨-, -, disk, hkeeps, rfl⟩ := store_eq_ok_iff.1 hstore
    refine ⟨_, Disk.contents?_of_keeps hkeeps, h.read_text, rfl, rfl,
      Obj.Reading.within_ofMesh hwithin, ?_⟩
    intro f hf
    exact Obj.toNat_add_one (hwithin f hf) h.vertexCount_lt
  · rintro htaken rfl
    exact store_refused htaken

/- Two triangles with a side in common. -/
def kite : Obj Float :=
  { name := "kite"
    mesh :=
      { positions := #[⟨-0.1, 0, 1e-7⟩, ⟨0, -2.5, 3⟩, ⟨0, 2.5, 3⟩, ⟨12345678.9, 0, -0.0⟩]
        faces := #[⟨0, 1, 2⟩, ⟨1, 3, 2⟩] } }

/- A face with a corner that is no vertex. -/
def torn : Obj Float :=
  { kite with mesh := { kite.mesh with faces := #[⟨0, 1, 4⟩] } }

/- The kite with one corner moved. -/
def bent : Obj Float :=
  { kite with mesh := { kite.mesh with
      positions := #[⟨-0.1, 0, 1e-7⟩, ⟨0, -2.5, 3⟩, ⟨0, 2.5, 3⟩, ⟨12345678.9, 0, 0.5⟩] } }

/- A new disk takes the kite in a directory that it does not have yet; a disk with a file where that
directory would be does not. -/
theorem kite_stored :
    (∃ (later : Session) (r : Obj.Reading Float),
      carryOut (store "out/kite.obj" kite false) {} = (.ok (), later) ∧
      later.disk.contents? "out/kite.obj" = some (kite.text Decimal.positional) ∧
      Obj.read (kite.text Decimal.positional) = .ok r ∧ r.faces = [(1, 2, 3), (2, 4, 3)]) ∧
    (¬∃ later, carryOut (store "out/kite.obj" kite true)
      { disk := Disk.ofFiles [("out", "")] } = (.ok (), later)) ∧
    kite.text Decimal.positional ≠ bent.text Decimal.positional ∧
    carryOut (store "torn.obj" torn true) {} = (.error (.invalidMesh .danglingCorner), {}) ∧
    ∃ failure, carryOut (store "kite.obj" kite false)
        { disk := Disk.ofFiles [("kite.obj", "")] } =
      (.error failure, { disk := Disk.ofFiles [("kite.obj", "")] }) := by
  have hkite : Sound kite :=
    ⟨by decide +kernel, by decide +kernel, by decide +kernel, by decide +kernel⟩
  have hbent : Sound bent :=
    ⟨by decide +kernel, by decide +kernel, by decide +kernel, by decide +kernel⟩
  have hfree : ¬({} : Session).disk.occupied "out/kite.obj" = true := by decide +kernel
  have hadmits : ({} : Session).disk.Admits "out/kite.obj" := by decide +kernel
  have hblocked : ¬(Disk.ofFiles [("out", "")]).Admits "out/kite.obj" := by decide +kernel
  have htaken : (Disk.ofFiles [("kite.obj", "")]).occupied "kite.obj" = true := by decide +kernel
  obtain ⟨hkept, hstored, hinj, -, -⟩ := store_faithful {} "out/kite.obj" kite false
  obtain ⟨-, hstored', -, -, -⟩ :=
    store_faithful { disk := Disk.ofFiles [("out", "")] } "out/kite.obj" kite true
  obtain ⟨-, -, -, hdefect, -⟩ := store_faithful {} "torn.obj" torn true
  obtain ⟨-, -, -, -, hrefused⟩ :=
    store_faithful { disk := Disk.ofFiles [("kite.obj", "")] } "kite.obj" kite false
  obtain ⟨later, hstore⟩ := (hstored hkite).2 ⟨fun htaken => absurd htaken hfree, hadmits⟩
  obtain ⟨r, hcontents, hread, -, hfaces, -⟩ := hkept hkite later hstore
  refine ⟨⟨later, r, hstore, hcontents, hread, hfaces⟩, ?_, ?_, ?_, hrefused htaken rfl⟩
  · intro hexists
    exact hblocked ((hstored' hkite).1 hexists).2
  · intro htext
    have hmesh := hinj bent hkite hbent htext
    exact absurd (congrArg Mesh.positions hmesh) (by decide +kernel)
  · exact hdefect _ (by decide +kernel)

end ProceduralShapes.Cli
