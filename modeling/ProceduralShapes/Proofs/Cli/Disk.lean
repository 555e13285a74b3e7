import ProceduralShapes.Cli.Session

/-!
# Where a disk takes a file

The steps of a path are those of its directory and one more (`exists_parent?`). Directories can be
made along a way if and only if each of its places is a directory or can become one, and then they
are what the disk has more (`Grown`). A file can be opened where such a way ends (`Admits`).
-/

namespace ProceduralShapes.Cli

/-! ### Paths -/

namespace Path

theorem not_mem_of_mem_splitOn {a : Char} {cs piece : List Char} (h : piece ∈ cs.splitOn a) :
    a ∉ piece := by
  induction cs generalizing piece with
  | nil =>
    rw [List.splitOn_nil, List.mem_singleton] at h
    rw [h]
    exact List.not_mem_nil
  | cons c cs ih =>
    rw [List.splitOn_cons_eq_if_modifyHead] at h
    cases hcut : cs.splitOn a with
    | nil => exact absurd hcut (List.splitOn_ne_nil a cs)
    | cons front rest =>
      rw [hcut] at h ih
      split at h
      · rcases List.mem_cons.1 h with rfl | hmem
        · exact List.not_mem_nil
        · exact ih hmem
      · rename_i hc
        rcases List.mem_cons.1 h with rfl | hmem
        · intro ha
          rcases List.mem_cons.1 ha with rfl | hfront
          · exact hc (beq_self_eq_true a)
          · exact ih List.mem_cons_self hfront
        · exact ih (List.mem_cons_of_mem _ hmem)

/- The pieces that lead somewhere, as names. -/
def stepsOf (pieces : List (List Char)) : List String :=
  (pieces.filter fun piece => !isIdle piece).map String.ofList

theorem stepsOf_append (ps qs : List (List Char)) :
    stepsOf (ps ++ qs) = stepsOf ps ++ stepsOf qs := by
  rw [stepsOf, List.filter_append, List.map_append]
  rfl

theorem steps_ofPieces {ps : List (List Char)} (hne : ps ≠ []) (h : ∀ p ∈ ps, separator ∉ p) :
    steps (ofPieces ps) = stepsOf ps := by
  unfold ofPieces
  split
  · rfl
  · rw [steps, pieces, String.toList_ofList, List.splitOn_intercalate separator h hne]
    rfl

theorem stepsOf_reverse_dropIdle (ps : List (List Char)) :
    stepsOf (dropIdle ps).reverse = stepsOf ps.reverse := by
  fun_induction dropIdle ps with
  | case1 piece next rest hidle ih =>
    rw [ih, List.reverse_cons (a := piece), stepsOf_append]
    simp [stepsOf, hidle]
  | case2 piece next rest hidle => rfl
  | case3 ps hshort => rfl

theorem dropIdle_suffix (ps : List (List Char)) : dropIdle ps <:+ ps := by
  fun_induction dropIdle ps with
  | case1 piece next rest hidle ih => exact ih.trans (List.suffix_cons piece _)
  | case2 piece next rest hidle => exact List.suffix_refl _
  | case3 ps hshort => exact List.suffix_refl _

theorem dropIdle_ne_nil {ps : List (List Char)} (h : ps ≠ []) : dropIdle ps ≠ [] := by
  fun_induction dropIdle ps with
  | case1 piece next rest hidle ih => exact ih (List.cons_ne_nil _ _)
  | case2 piece next rest hidle => exact h
  | case3 ps hshort => exact h

/- The steps of a path that ends with a step are those of its directory, and that one. -/
theorem exists_parent? {path : String} (h : endsIdle path = false) :
    ∃ parent last, parent? path = some parent ∧ steps path = steps parent ++ [last] := by
  have hne : pieces path ≠ [] := List.splitOn_ne_nil separator path.toList
  obtain ⟨front, last, hpieces⟩ : ∃ front last, pieces path = front ++ [last] :=
    ⟨_, _, (List.dropLast_concat_getLast hne).symm⟩
  have hlast : isIdle last = false := by
    rw [endsIdle, hpieces, List.getLast?_concat] at h
    exact h
  have hsteps : steps path = stepsOf front ++ [String.ofList last] := by
    have hwhole : steps path = stepsOf (pieces path) := rfl
    rw [hwhole, hpieces, stepsOf_append]
    simp [stepsOf, hlast]
  have hreverse : (pieces path).reverse = last :: front.reverse := by
    rw [hpieces, List.reverse_append]
    rfl
  cases hfront : front.reverse with
  | nil =>
    have hnil : front = [] := List.reverse_eq_nil_iff.1 hfront
    refine ⟨"", String.ofList last, ?_, ?_⟩
    · have hsome : last.isEmpty = false := by
        cases last with
        | nil => cases hlast
        | cons c cs => rfl
      have hdrop : dropIdle [last] = [last] := rfl
      rw [parent?, hreverse, hfront, hdrop]
      dsimp only
      rw [if_neg (by rw [hsome]; exact Bool.false_ne_true)]
    · rw [hsteps, hnil]
      rfl
  | cons piece rest =>
    refine ⟨ofPieces (dropIdle (piece :: rest)).reverse, String.ofList last, ?_, ?_⟩
    · have hdrop : dropIdle (last :: piece :: rest) = last :: piece :: rest := by
        rw [dropIdle, if_neg (by rw [hlast]; exact Bool.false_ne_true)]
      rw [parent?, hreverse, hfront, hdrop]
    · rw [hsteps, steps_ofPieces, stepsOf_reverse_dropIdle, ← hfront, List.reverse_reverse]
      · exact List.reverse_ne_nil_iff.2 (dropIdle_ne_nil (List.cons_ne_nil _ _))
      · intro q hq
        have hmem : q ∈ front.reverse := by
          rw [hfront]
          exact (dropIdle_suffix _).subset (List.mem_reverse.1 hq)
        refine not_mem_of_mem_splitOn (show q ∈ pieces path from ?_)
        rw [hpieces]
        exact List.mem_append_left _ (List.mem_reverse.1 hmem)

end Path

/-! ### Ways -/

namespace Place

/- The places that the steps lead through, one after the other. -/
def way (here : Place) : List String → List Place
  | [] => []
  | step :: rest => here.move step :: way (here.move step) rest

/- The place that a path leads to. -/
def ofPath (path : String) : Place := (Path.steps path).foldl move []

end Place

namespace Disk

variable {d d' : Disk}

theorem isDirectory_root : d.isDirectory [] = true := rfl

theorem walk_way {here : Place} {steps : List String} (hhere : d.isDirectory here = true)
    (h : ∀ q ∈ here.way steps, d.isDirectory q = true) (last : String) :
    d.walk here (steps ++ [last]) = some ((steps ++ [last]).foldl Place.move here) := by
  induction steps generalizing here with
  | nil => rw [List.nil_append, walk, if_pos hhere]; rfl
  | cons step rest ih =>
    obtain ⟨hnext, hrest⟩ := List.forall_mem_cons.1 h
    rw [List.cons_append, walk, if_pos hhere, ih hnext hrest]
    rfl

/- A path to a file goes through directories to a name. -/
theorem locate_way {path : String} (hends : Path.endsIdle path = false)
    (h : ∀ q ∈ Place.way [] (Path.steps path).dropLast, d.isDirectory q = true) :
    d.locate path = some (Place.ofPath path) := by
  obtain ⟨parent, last, -, hsteps⟩ := Path.exists_parent? hends
  rw [hsteps, List.dropLast_concat] at h
  have hsome : path.isEmpty = false := by
    cases hempty : path.isEmpty with
    | false => rfl
    | true =>
      rw [String.isEmpty_iff.1 hempty] at hends
      cases hends
  rw [locate, hsome, hsteps, walk_way isDirectory_root h, hends, Place.ofPath, hsteps]
  simp

theorem endsIdle_of_locate {path : String} {p : Place} (h : d.locate path = some p)
    (hp : d.isDirectory p = false) : Path.endsIdle path = false := by
  unfold locate at h
  split at h
  · cases h
  · obtain ⟨-, hkind⟩ := Option.filter_eq_some_iff.1 h
    simpa [hp] using hkind

/-! ### Making directories -/

/- There is a directory at the place, or one can be made. -/
def Passable (d : Disk) (p : Place) : Prop :=
  d.isDirectory p = true ∨ d.files.contains p = false ∧ d.obstacle? .makeDirectory p = none

instance (d : Disk) (p : Place) : Decidable (d.Passable p) := inferInstanceAs (Decidable (_ ∨ _))

/- The disk `d'` has directories at the places `ps` and is like `d` otherwise. -/
structure Grown (d : Disk) (ps : List Place) (d' : Disk) : Prop where
  files_eq : d'.files = d.files
  obstacle_eq : d'.obstacle? = d.obstacle?
  isDirectory_iff : ∀ q, d'.isDirectory q = true ↔ d.isDirectory q = true ∨ q ∈ ps

theorem grown_nil (d : Disk) : d.Grown [] d where
  files_eq := rfl
  obstacle_eq := rfl
  isDirectory_iff q := by simp

theorem Grown.trans {d'' : Disk} {ps qs : List Place} (h : d.Grown ps d') (h' : d'.Grown qs d'') :
    d.Grown (ps ++ qs) d'' where
  files_eq := h'.files_eq.trans h.files_eq
  obstacle_eq := h'.obstacle_eq.trans h.obstacle_eq
  isDirectory_iff q := by
    rw [h'.isDirectory_iff, h.isDirectory_iff, List.mem_append, or_assoc]

theorem grown_of_addDirectory {p : Place} (h : d.addDirectory p = .ok d') : d.Grown [p] d' := by
  unfold addDirectory at h
  split at h
  · rename_i hp
    cases h
    refine ⟨rfl, rfl, fun q => ?_⟩
    simp only [List.mem_singleton, iff_self_or]
    rintro rfl
    exact hp
  · split at h
    · cases h
    · split at h
      · cases h
      · cases h
        refine ⟨rfl, rfl, fun q => ?_⟩
        simp only [isDirectory, List.contains_cons, Bool.or_eq_true, beq_iff_eq, List.mem_singleton,
          or_assoc, or_comm (a := q = p)]

theorem exists_addDirectory_iff {p : Place} :
    (∃ d', d.addDirectory p = .ok d') ↔ d.Passable p := by
  unfold addDirectory Passable
  split
  · rename_i hdirectory
    exact ⟨fun _ => .inl hdirectory, fun _ => ⟨d, rfl⟩⟩
  · rename_i hdirectory
    rw [or_iff_right hdirectory]
    split
    · rename_i hfile
      simp [hfile]
    · rename_i hfile
      rw [Bool.not_eq_true] at hfile
      split
      · rename_i o ho
        simp [ho]
      · rename_i hnone
        exact ⟨fun _ => ⟨hfile, hnone⟩, fun _ => ⟨_, rfl⟩⟩

theorem Grown.passable_iff {ps : List Place} (h : d.Grown ps d') (hps : ∀ p ∈ ps, d.Passable p)
    (q : Place) : d'.Passable q ↔ d.Passable q := by
  rw [Passable, h.isDirectory_iff, h.files_eq, h.obstacle_eq]
  constructor
  · rintro ((hq | hq) | hq)
    · exact .inl hq
    · exact hps q hq
    · exact .inr hq
  · rintro (hq | hq)
    · exact .inl (.inl hq)
    · exact .inr hq

theorem grown_of_makeSteps {here : Place} {steps : List String}
    (h : d.makeSteps here steps = (.ok (), d')) : d.Grown (here.way steps) d' := by
  induction steps generalizing d here with
  | nil =>
    cases h
    exact grown_nil _
  | cons step rest ih =>
    rw [makeSteps] at h
    cases hadd : d.addDirectory (here.move step) with
    | error reason =>
      rw [hadd] at h
      cases h
    | ok next =>
      rw [hadd] at h
      exact (grown_of_addDirectory hadd).trans (ih h)

/- Directories can be made along a way exactly if all its places are passable. -/
theorem exists_makeSteps_iff {here : Place} {steps : List String} :
    (∃ d', d.makeSteps here steps = (.ok (), d')) ↔ ∀ q ∈ here.way steps, d.Passable q := by
  induction steps generalizing d here with
  | nil => simp [makeSteps, Place.way]
  | cons step rest ih =>
    rw [makeSteps, Place.way, List.forall_mem_cons, ← exists_addDirectory_iff]
    cases hadd : d.addDirectory (here.move step) with
    | error reason => simp
    | ok next =>
      have hgrown := grown_of_addDirectory hadd
      have hpassable : ∀ q, next.Passable q ↔ d.Passable q :=
        hgrown.passable_iff (List.forall_mem_singleton.2 (exists_addDirectory_iff.1 ⟨next, hadd⟩))
      dsimp only
      rw [ih]
      simp [hpassable]

/-! ### Files -/

theorem walk_put (p : Place) (c : Contents) (here : Place) (steps : List String) :
    (d.put p c).walk here steps = d.walk here steps := by
  induction steps generalizing here with
  | nil => rfl
  | cons step rest ih =>
    have hsame : (d.put p c).isDirectory here = d.isDirectory here := rfl
    rw [walk, walk, hsame, ih]

theorem locate_put (p : Place) (c : Contents) (path : String) :
    (d.put p c).locate path = d.locate path := by
  rw [locate, locate, walk_put]
  rfl

/- What is put at the end of a path is found there. -/
theorem contents?_put {path : String} {p : Place} (h : d.locate path = some p) (c : Contents) :
    (d.put p c).contents? path = some c.toText := by
  rw [contents?, locate_put, h, Option.bind_some]
  simp [put]

theorem create_eq_ok_iff {path : String} {p : Place} :
    d.create path = (.ok p, d') ↔ d.locate path = some p ∧ d.isDirectory p = false ∧
      d.obstacle? .create p = none ∧ d' = d.put p (.text "") := by
  constructor
  · intro h
    unfold create at h
    split at h
    · cases h
    · rename_i q hq
      split at h
      · cases h
      · rename_i hdirectory
        split at h
        · cases h
        · rename_i hnone
          cases h
          exact ⟨hq, Bool.eq_false_iff.2 hdirectory, hnone, rfl⟩
  · rintro ⟨hlocate, hdirectory, hnone, rfl⟩
    simp [create, hlocate, hdirectory, hnone]

theorem write_eq_ok_iff {p : Place} {document : Obj Float} :
    d.write p document = (.ok (), d') ↔
      d.obstacle? .write p = none ∧ d' = d.put p (.document document) := by
  unfold write
  split
  · simp_all
  · simp_all [eq_comm]

theorem flush_eq_ok_iff {p : Place} :
    d.flush p = (.ok (), d') ↔ d.obstacle? .flush p = none ∧ d' = d := by
  unfold flush
  split
  · simp_all
  · simp_all [eq_comm]

/-! ### Keeping a document -/

def makeParent (d : Disk) (path : String) : Except String Unit × Disk :=
  match Path.parent? path with
  | none => (.ok (), d)
  | some parent => d.makeDirectory parent

/- The directory that holds a file is made step by step. -/
theorem makeParent_eq {path : String} (h : Path.endsIdle path = false) :
    d.makeParent path = d.makeSteps [] (Path.steps path).dropLast := by
  obtain ⟨parent, last, hparent, hsteps⟩ := Path.exists_parent? h
  rw [makeParent, hparent, hsteps, List.dropLast_concat]
  rfl

/- The document is written to the end of the path, and nothing is refused on the way to `d'`. -/
def Keeps (d : Disk) (path : String) (document : Obj Float) (d' : Disk) : Prop :=
  ∃ made p opened written, d.makeParent path = (.ok (), made) ∧
    made.create path = (.ok p, opened) ∧ opened.write p document = (.ok (), written) ∧
    written.flush p = (.ok (), d')

/- A document can be kept at the path: it ends with a name, there are directories on the way or can
be made, no directory stands at its end before or after that, and nothing else is in the way. -/
structure Admits (d : Disk) (path : String) : Prop where
  named : Path.endsIdle path = false
  passable : ∀ q ∈ Place.way [] (Path.steps path).dropLast, d.Passable q
  free : d.isDirectory (Place.ofPath path) = false
  apart : Place.ofPath path ∉ Place.way [] (Path.steps path).dropLast
  unhindered : ∀ a ∈ [Access.create, .write, .flush], d.obstacle? a (Place.ofPath path) = none

instance (d : Disk) (path : String) : Decidable (d.Admits path) :=
  decidable_of_iff (Path.endsIdle path = false ∧
      (∀ q ∈ Place.way [] (Path.steps path).dropLast, d.Passable q) ∧
      d.isDirectory (Place.ofPath path) = false ∧
      Place.ofPath path ∉ Place.way [] (Path.steps path).dropLast ∧
      ∀ a ∈ [Access.create, .write, .flush], d.obstacle? a (Place.ofPath path) = none)
    ⟨fun ⟨named, passable, free, apart, unhindered⟩ => ⟨named, passable, free, apart, unhindered⟩,
      fun h => ⟨h.named, h.passable, h.free, h.apart, h.unhindered⟩⟩

variable {path : String} {document : Obj Float}

/- A document that is kept is found at its path. -/
theorem contents?_of_keeps (h : d.Keeps path document d') :
    d'.contents? path = some (document.text Decimal.positional) := by
  obtain ⟨made, p, opened, written, -, hcreate, hwrite, hflush⟩ := h
  obtain ⟨hlocate, -, -, rfl⟩ := create_eq_ok_iff.1 hcreate
  obtain ⟨-, rfl⟩ := write_eq_ok_iff.1 hwrite
  obtain ⟨-, rfl⟩ := flush_eq_ok_iff.1 hflush
  exact contents?_put ((locate_put _ _ _).trans hlocate) _

theorem admits_of_keeps (h : d.Keeps path document d') : d.Admits path := by
  obtain ⟨made, p, opened, written, hmade, hcreate, hwrite, hflush⟩ := h
  obtain ⟨hlocate, hfree, hcreates, rfl⟩ := create_eq_ok_iff.1 hcreate
  obtain ⟨hwrites, rfl⟩ := write_eq_ok_iff.1 hwrite
  obtain ⟨hflushes, -⟩ := flush_eq_ok_iff.1 hflush
  have hnamed := endsIdle_of_locate hlocate hfree
  rw [makeParent_eq hnamed] at hmade
  have hgrown := grown_of_makeSteps hmade
  have hpassable := exists_makeSteps_iff.1 ⟨made, hmade⟩
  rw [locate_way hnamed fun q hq => (hgrown.isDirectory_iff q).2 (.inr hq)] at hlocate
  obtain rfl := Option.some.inj hlocate
  have hnowhere := Bool.eq_false_iff.1 hfree
  rw [ne_eq, hgrown.isDirectory_iff, not_or] at hnowhere
  refine ⟨hnamed, hpassable, Bool.eq_false_iff.2 hnowhere.1, hnowhere.2, ?_⟩
  rw [← hgrown.obstacle_eq, List.forall_mem_cons, List.forall_mem_cons, List.forall_mem_singleton]
  exact ⟨hcreates, hwrites, hflushes⟩

theorem exists_keeps (h : d.Admits path) (document : Obj Float) :
    ∃ d', d.Keeps path document d' := by
  obtain ⟨made, hmade⟩ := exists_makeSteps_iff.2 h.passable
  have hgrown := grown_of_makeSteps hmade
  have hlocate := locate_way h.named fun q hq => (hgrown.isDirectory_iff q).2 (.inr hq)
  have hfree : made.isDirectory (Place.ofPath path) = false := by
    rw [Bool.eq_false_iff, ne_eq, hgrown.isDirectory_iff, not_or]
    exact ⟨Bool.eq_false_iff.1 h.free, h.apart⟩
  have hunhindered := h.unhindered
  rw [← hgrown.obstacle_eq, List.forall_mem_cons, List.forall_mem_cons,
    List.forall_mem_singleton] at hunhindered
  obtain ⟨hcreates, hwrites, hflushes⟩ := hunhindered
  exact ⟨_, made, Place.ofPath path, _, _, (makeParent_eq h.named).trans hmade,
    create_eq_ok_iff.2 ⟨hlocate, hfree, hcreates, rfl⟩, write_eq_ok_iff.2 ⟨hwrites, rfl⟩,
    flush_eq_ok_iff.2 ⟨hflushes, rfl⟩⟩

end Disk

end ProceduralShapes.Cli
