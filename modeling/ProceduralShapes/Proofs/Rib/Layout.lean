import Mathlib.Logic.Relation
import ProceduralShapes.Proofs.Rib.PatchForm
import ProceduralShapes.Proofs.Text.Words

/-!
# The layout of a patch

The values of a patch can be laid out in many ways: any number of them on its own line and the others
on the lines that follow, blank lines among these, and the words of a line with any separators between
them and at its ends (`Layout`). A file in order can be given any other layout of its patches and is
read as the same patches (`patch_layout`).
-/

namespace ProceduralShapes.Rib

open Decimal (Numeral)

variable {α : Type}

/-! ### Layouts -/

/- A line with these words on it. -/
abbrev Line (ws : List String) (text : String) : Prop := Text.Spaced isSeparator ws text.toList

theorem line_iff {ws : List String} {text : String} : Line ws text ↔ words text = ws :=
  Text.pieces_eq_iff.symm

theorem lines_iff {wss : List (List String)} {texts : List String} :
    List.Forall₂ Line wss texts ↔ wss = texts.map words := by
  have hline : Line = fun ws text => ws = words text := by
    funext ws text
    exact propext (line_iff.trans eq_comm)
  rw [hline, ← List.forall₂_map_right_iff, List.forall₂_eq_eq_eq]

/- The names of a patch on its line, and its values on the rest of the line and on the lines that
follow. Where a name is missing, a value in its place would be taken for it. -/
def Layout (names values : List String) (text : String) (more : List String) : Prop :=
  ∃ (here : List String) (there : List (List String)), Line ("Patch" :: (names ++ here)) text ∧
    List.Forall₂ Line there more ∧ here ++ there.flatten = values ∧ (here = [] ∨ names.length = 2)

theorem layout_iff {names values more : List String} {text : String} (hnames : names.length ≤ 2) :
    Layout names values text more ↔ ∃ args, words text = "Patch" :: args ∧ args.take 2 = names ∧
      args.drop 2 ++ more.flatMap words = values := by
  constructor
  · rintro ⟨here, there, hline, hlines, rfl, hplace⟩
    refine ⟨names ++ here, line_iff.1 hline, ?_⟩
    rw [lines_iff.1 hlines, ← List.flatMap_def]
    rcases hplace with rfl | htwo
    · rw [List.append_nil, List.take_of_length_le hnames, List.drop_of_length_le hnames]
      exact ⟨rfl, rfl⟩
    · exact ⟨List.take_left' htwo, by rw [List.drop_left' htwo]⟩
  · rintro ⟨args, hwords, rfl, rfl⟩
    refine ⟨args.drop 2, more.map words, ?_, lines_iff.2 rfl, ?_, ?_⟩
    · rw [List.take_append_drop]
      exact line_iff.2 hwords
    · rw [← List.flatMap_def]
    · rcases Nat.lt_or_ge args.length 2 with hlt | hge
      · exact .inl (List.drop_of_length_le (Nat.le_of_lt hlt))
      · exact .inr (List.length_take_of_le hge)

/-! ### Reading a layout -/

section Values
variable [Numeral α]

theorem PatchForm.basis_names {args more : List String} {values : List α}
    (h : PatchForm args more values) : unquoted ((args.take 2).headD "") = "bicubic" := by
  obtain ⟨word, rest, rfl, hbasis⟩ := h.basis
  exact hbasis

/- The values of a patch with the words for them: three of each for a control point. -/
theorem spell_net {tokens : List String} {values : List α} (h : Spell tokens values)
    (hsize : values.toArray.size = 48) (k : Fin 16) :
    Spell ((tokens.drop (3 * k)).take 3)
      [(net values.toArray hsize)[k].x, (net values.toArray hsize)[k].y,
        (net values.toArray hsize)[k].z] := by
  have hlength : values.length = 48 := hsize
  have hk := k.isLt
  have hdrop : values.drop (3 * k) = values[3 * k.val] :: values[3 * k.val + 1] ::
      values[3 * k.val + 2] :: values.drop (3 * k + 1 + 1 + 1) := by
    rw [List.drop_eq_getElem_cons (by omega), List.drop_eq_getElem_cons (by omega),
      List.drop_eq_getElem_cons (by omega)]
  have hpoint : (net values.toArray hsize)[k] =
      ⟨values[3 * k.val], values[3 * k.val + 1], values[3 * k.val + 2]⟩ := by simp [net]
  have hthree := List.forall₂_take 3 (List.forall₂_drop (3 * k) h)
  rw [hdrop] at hthree
  rwa [hpoint]

/- The lines of a layout complete the patch, and those left over are blank. -/
theorem exists_takes {values xs : List α} {more : List String} (hxs : Spell (more.flatMap words) xs)
    (hlength : (values ++ xs).length = 48) : ∃ used blanks, more = used ++ blanks ∧
      Takes values used (values ++ xs) ∧ ∀ text ∈ blanks, words text = [] := by
  induction more generalizing values xs with
  | nil =>
    obtain rfl := List.forall₂_nil_left_iff.1 hxs
    rw [List.append_nil] at hlength ⊢
    exact ⟨[], [], rfl, .done hlength, by simp⟩
  | cons text more ih =>
    by_cases hfull : values.length = 48
    · have hnone : xs = [] := by
        rw [List.length_append] at hlength
        exact List.eq_nil_of_length_eq_zero (by omega)
      subst hnone
      refine ⟨[], text :: more, rfl, ?_, ?_⟩
      · rw [List.append_nil]
        exact .done hfull
      · exact List.flatMap_eq_nil_iff.1 (List.forall₂_nil_right_iff.1 hxs)
    · obtain ⟨ys, zs, hys, hzs, rfl⟩ := spell_append_iff.1 hxs
      have hshort : values.length < 48 := by
        rw [List.length_append] at hlength
        omega
      rw [← List.append_assoc] at hlength ⊢
      obtain ⟨used, blanks, rfl, htakes, hblank⟩ := ih hzs hlength
      exact ⟨text :: used, blanks, rfl, .line hshort hys htakes, hblank⟩

end Values

section Reading
variable [Scalar α] [Trig α] [SquareRoot α] [Finiteness α] [LT α] [DecidableLT α] [Numeral α]

namespace State

theorem takeLines_blank {s : State α} (h : s.waiting = none) {texts : List String}
    (hblank : ∀ text ∈ texts, words text = []) (line : Nat) : s.takeLines line texts = (s, none) := by
  induction texts generalizing line with
  | nil => rfl
  | cons text rest ih =>
    obtain ⟨hfirst, hrest⟩ := List.forall_mem_cons.1 hblank
    have hword : s.takeWords line [] = .ok s := by rw [takeWords, h]
    rw [takeLines, hfirst, hword]
    exact ih hrest (line + 1)

/- However the values are laid out, reading them leaves the patch of these values. -/
theorem takeLines_layout {s : State α} (hwaiting : s.waiting = none) {names tokens more : List String}
    {text : String} {values : List α} (hnames : names.length ≤ 2)
    (hbasis : unquoted (names.headD "") = "bicubic") (hvalues : Spell tokens values)
    (hlength : tokens.length = 48) (hlayout : Layout names tokens text more) (line : Nat) :
    ∃ hsize, s.takeLines line (text :: more) = (s.withPatch values hsize, none) := by
  obtain ⟨args, hwords, rfl, rfl⟩ := (layout_iff hnames).1 hlayout
  obtain ⟨xs, ys, hxs, hys, rfl⟩ := spell_append_iff.1 hvalues
  rw [hvalues.length_eq] at hlength
  obtain ⟨used, blanks, rfl, htakes, hblank⟩ := exists_takes hys hlength
  obtain ⟨hsize, next, hnext, htake⟩ := takeLines_of_takes htakes s line (line + 1)
  have hhead : args.headD "" = (args.take 2).headD "" := by cases args <;> rfl
  have hargs : patchArguments line args = .ok xs := by
    rw [patchArguments, hhead, if_pos hbasis]
    exact numbers_eq_ok_iff.2 hxs
  refine ⟨hsize, ?_⟩
  rw [takeLines, hwords, takeWords_patch hwaiting, hargs]
  simp only [bind, Except.bind, hnext]
  rw [takeLines_append, htake]
  exact takeLines_blank rfl hblank _

end State

/-! ### Files with a patch laid out in another way -/

/- Which line a file goes on at makes no difference to its patches. -/
theorem patches_reading {s : State α} (hwaiting : s.waiting = none) {lines lines' : Nat}
    {texts : List String} {ps : Array (Patch α)}
    (h : (s.reading (1 + lines) texts).patches = .ok ps) :
    (s.reading (1 + lines') texts).patches = .ok ps := by
  rw [State.reading_eq_behind hwaiting, patches_behind, Fallible.map_eq_ok_iff] at h ⊢
  obtain ⟨later, hlater, rfl⟩ := h
  cases hread : (s.afresh.reading 1 texts).patches with
  | error e =>
    rw [hread] at hlater
    cases hlater
  | ok later' =>
    rw [hread] at hlater
    cases hlater
    exact ⟨later, rfl, rfl⟩

section Layouts
variable {a names tokens more : List String} {text : String} {s : State α} {values : List α}
  (ha : State.initial.takeLines 1 a = (s, none)) (hwaiting : s.waiting = none)
  (hnames : names.length ≤ 2) (hbasis : unquoted (names.headD "") = "bicubic")
  (hvalues : Spell tokens values) (hlength : tokens.length = 48)
include ha hwaiting hnames hbasis hvalues hlength

/- The lines of a patch are read as the patch, and the line behind them as a directive. -/
theorem takeLines_append_layout (hlayout : Layout names tokens text more) :
    ∃ hsize, State.initial.takeLines 1 (a ++ text :: more) = (s.withPatch values hsize, none) := by
  obtain ⟨hsize, htake⟩ := State.takeLines_layout hwaiting hnames hbasis hvalues hlength hlayout
    (1 + a.length)
  refine ⟨hsize, ?_⟩
  rw [State.takeLines_append, ha]
  exact htake

theorem patches_of_layouts {after : List String} {ps : Array (Patch α)}
    (hlayout : Layout names tokens text more)
    (hps : (readLines (a ++ text :: (more ++ after)) : Reading α).patches = .ok ps)
    {text' : String} {more' : List String} (hlayout' : Layout names tokens text' more') :
    (readLines (a ++ text' :: (more' ++ after)) : Reading α).patches = .ok ps := by
  obtain ⟨hsize, htake⟩ := takeLines_append_layout ha hwaiting hnames hbasis hvalues hlength hlayout
  obtain ⟨_, htake'⟩ :=
    takeLines_append_layout ha hwaiting hnames hbasis hvalues hlength hlayout'
  rw [← List.cons_append, ← List.append_assoc, readLines_eq_reading,
    State.reading_append htake] at hps
  rw [← List.cons_append, ← List.append_assoc, readLines_eq_reading, State.reading_append htake']
  exact patches_reading rfl hps

end Layouts

end Reading

/- A patch of a file is laid out in another way. -/
inductive Relaid : List String → List String → Prop
  | intro (a after : List String) {names tokens more more' : List String} {text text' : String}
      (hnames : names.length ≤ 2) (hlength : tokens.length = 48)
      (h : Layout names tokens text more) (h' : Layout names tokens text' more') :
      Relaid (a ++ text :: (more ++ after)) (a ++ text' :: (more' ++ after))

/- A line of a file in order that begins with `Patch` begins a patch, under a state with none
waiting. -/
theorem exists_form {text : String} {args : List String} (hwords : words text = "Patch" :: args)
    {a rest : List String} {ps : Array (Patch Float)}
    (hps : (readLines (a ++ text :: rest) : Reading Float).patches = .ok ps) :
    ∃ (s : State Float) (more after : List String) (values : List Float),
      State.initial.takeLines 1 a = (s, none) ∧ s.waiting = none ∧ rest = more ++ after ∧
        PatchForm args more values := by
  have hname : (Decimal.read? "Patch" : Option Float) = none := by decide +kernel
  obtain ⟨s, htake, hwaiting⟩ := idle_of_patches hname hwords hps
  obtain ⟨more, after, values, hrest, hform⟩ :=
    form_of_patches hwords htake hwaiting (error?_of_patches_ok hps).1
  exact ⟨s, more, after, values, htake, hwaiting, hrest, hform⟩

theorem patches_of_relaid {file file' : List String} (h : Relaid file file')
    {ps : Array (Patch Float)} (hps : (readLines file : Reading Float).patches = .ok ps) :
    (readLines file' : Reading Float).patches = .ok ps := by
  obtain ⟨a, after, hnames, hlength, hlayout, hlayout'⟩ := h
  rename_i names tokens more more' text text'
  obtain ⟨args, hwords, rfl, htokens⟩ := (layout_iff hnames).1 hlayout
  obtain ⟨s, used, behind, values, ha, hwaiting, hrest, hform⟩ := exists_form hwords hps
  -- Both ways of cutting the file give the first 48 words behind the names.
  have hwordsEq : tokens ++ after.flatMap words =
      (args.drop 2 ++ used.flatMap words) ++ behind.flatMap words := by
    rw [← htokens, List.append_assoc, List.append_assoc, ← List.flatMap_append,
      ← List.flatMap_append, hrest]
  have hused : (args.drop 2 ++ used.flatMap words).length = 48 :=
    hform.spell.length_eq.trans hform.length_eq
  obtain ⟨hsame, -⟩ := List.append_inj hwordsEq (hlength.trans hused.symm)
  exact patches_of_layouts ha hwaiting hnames hform.basis_names (hsame ▸ hform.spell) hlength
    hlayout hps hlayout'

/- The words behind `Patch` and its two names in a file in order are 48 values, three for each control
point. However they are laid out, they are read as the patch, the line behind them is read as a
directive, and the patches of the file are the same; so too if any number of its patches is laid out in
other ways. -/
theorem patch_layout :
    (∀ (a rest : List String) (text : String) (args : List String) (ps : Array (Patch Float)),
      words text = "Patch" :: args →
      (readLines (a ++ text :: rest) : Reading Float).patches = .ok ps →
      ∃ (s : State Float) (more after tokens : List String) (points : Net Float),
        State.initial.takeLines 1 a = (s, none) ∧ s.waiting = none ∧ rest = more ++ after ∧
        Layout (args.take 2) tokens text more ∧ tokens.length = 48 ∧
        (∀ n < more.length, (args.drop 2 ++ (more.take n).flatMap words).length < 48) ∧
        (∀ k : Fin 16, Spell ((tokens.drop (3 * k)).take 3)
          [points[k].x, points[k].y, points[k].z]) ∧
        ∀ text' more', Layout (args.take 2) tokens text' more' →
          State.initial.takeLines 1 (a ++ text' :: more') =
            ({ s with patches := s.patches.push (Patch.ofNet points s.current .bezier) }, none) ∧
          (readLines (a ++ text' :: (more' ++ after)) : Reading Float).patches = .ok ps) ∧
    ∀ (file file' : List String) (ps : Array (Patch Float)),
      Relation.ReflTransGen Relaid file file' →
      (readLines file : Reading Float).patches = .ok ps →
      (readLines file' : Reading Float).patches = .ok ps := by
  constructor
  · intro a rest text args ps hwords hps
    obtain ⟨s, more, after, values, ha, hwaiting, rfl, hform⟩ := exists_form hwords hps
    have hnames : (args.take 2).length ≤ 2 := List.length_take_le 2 args
    have hlength : (args.drop 2 ++ more.flatMap words).length = 48 :=
      hform.spell.length_eq.trans hform.length_eq
    have hlayout : Layout (args.take 2) (args.drop 2 ++ more.flatMap words) text more :=
      (layout_iff hnames).2 ⟨args, hwords, rfl, rfl⟩
    refine ⟨s, more, after, _, net values.toArray hform.length_eq, ha, hwaiting, rfl, hlayout,
      hlength, hform.shortest, spell_net hform.spell hform.length_eq, ?_⟩
    intro text' more' hlayout'
    obtain ⟨_, htake⟩ := takeLines_append_layout ha hwaiting hnames hform.basis_names hform.spell
      hlength hlayout'
    refine ⟨?_, patches_of_layouts ha hwaiting hnames hform.basis_names hform.spell hlength
      hlayout hps hlayout'⟩
    rw [htake, State.withPatch, hwaiting]
  · intro file file' ps hrelaid hps
    induction hrelaid with
    | refl => exact hps
    | tail _ hlast ih => exact patches_of_relaid hlast ih

/- A patch on one line. -/
def rowPatch : String :=
  "Patch \"bicubic\" \"P\" [0 0 0 0 1 0 0 2 0 0 3 0 1 0 0 1 1 0 1 2 0 1 3 0 " ++
    "2 0 0 2 1 0 2 2 0 2 3 0 3 0 0 3 1 0 3 2 0 3 3 0]"

/- The same patch over five lines more, the first and the last of them blank. -/
def spreadPatch : List String :=
  ["\tPatch  \"bicubic\" ] \"P\"", "", "[0 0 0 0 1 0][ 0 2",
    "  0 0 3 0 1 0 0 1 1 0 1 2 0 1 3 0 2 0 0 2 1 0", "2 2 0 2 3 0 3 0 0 3 1 0 3 2 0 3 3 0 ]", " "]

/- The words behind `Patch` in both. -/
def rowArguments : List String := (words rowPatch).drop 1

theorem words_rowPatch : words rowPatch = "Patch" :: rowArguments := by decide +kernel

theorem length_rowArguments : (rowArguments.drop 2).length = 48 := by decide +kernel

theorem layout_rowPatch :
    Layout (rowArguments.take 2) (rowArguments.drop 2) rowPatch [] :=
  (layout_iff (List.length_take_le 2 _)).2
    ⟨rowArguments, words_rowPatch, rfl, List.append_nil _⟩

theorem layout_spreadPatch :
    Layout (rowArguments.take 2) (rowArguments.drop 2) (spreadPatch.headD "") spreadPatch.tail := by
  refine (layout_iff (List.length_take_le 2 _)).2 ⟨rowArguments.take 2, ?_, ?_, ?_⟩
  · decide +kernel
  · rw [List.take_take, Nat.min_self]
  · decide +kernel

theorem rowPatches_relaid :
    Relation.ReflTransGen Relaid [rowPatch, rowPatch] (spreadPatch ++ spreadPatch) := by
  have hfirst : Relaid [rowPatch, rowPatch] (spreadPatch ++ [rowPatch]) :=
    .intro [] [rowPatch] (List.length_take_le 2 _) length_rowArguments layout_rowPatch
      layout_spreadPatch
  have hsecond : Relaid (spreadPatch ++ [rowPatch]) (spreadPatch ++ spreadPatch) :=
    .intro spreadPatch [] (List.length_take_le 2 _) length_rowArguments layout_rowPatch
      layout_spreadPatch
  exact (Relation.ReflTransGen.single hfirst).tail hsecond

/- Two patches in a file, each on one line, and both of them spread. -/
theorem rowPatches_spread :
    (∃ s : State Float, s.waiting = none ∧ s.patches.size = 1 ∧
      State.initial.takeLines 1 spreadPatch = (s, none)) ∧
    ∃ ps, ps.size = 2 ∧ (readLines [rowPatch, rowPatch] : Reading Float).patches = .ok ps ∧
      (readLines (spreadPatch ++ spreadPatch) : Reading Float).patches = .ok ps := by
  obtain ⟨hnone, hsize⟩ : (readLines [rowPatch, rowPatch] : Reading Float).error? = none ∧
      (readLines [rowPatch, rowPatch] : Reading Float).state.patches.size = 2 := by decide +kernel
  have hps : (readLines [rowPatch, rowPatch] : Reading Float).patches =
      .ok (readLines [rowPatch, rowPatch] : Reading Float).state.patches := by
    rw [Reading.patches, hnone]
  refine ⟨?_, _, hsize, hps, patch_layout.2 _ _ _ rowPatches_relaid hps⟩
  obtain ⟨s, more, after, tokens, points, ha, -, -, hlayout, -, hshort, -, hread⟩ :=
    patch_layout.1 [] [rowPatch] rowPatch rowArguments _ words_rowPatch hps
  cases ha
  -- All values stand on the first line.
  obtain rfl : more = [] := by
    cases more with
    | nil => rfl
    | cons text more =>
      have hless := hshort 0 (Nat.succ_pos _)
      rw [List.take_zero, List.flatMap_nil, List.append_nil, length_rowArguments] at hless
      exact absurd hless (Nat.lt_irrefl 48)
  obtain ⟨args, hargs, -, rfl⟩ := (layout_iff (List.length_take_le 2 _)).1 hlayout
  rw [words_rowPatch, List.cons.injEq] at hargs
  obtain ⟨-, rfl⟩ := hargs
  rw [List.flatMap_nil, List.append_nil] at hread
  exact ⟨_, rfl, rfl, (hread _ _ layout_spreadPatch).1⟩

end ProceduralShapes.Rib
