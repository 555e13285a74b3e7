import ProceduralShapes.Proofs.Rib.Comment

/-!
# The form of a patch directive

Behind the basis of a patch stands a word that is not looked at, and then its values: on the rest of
its line, and on the following lines up to the one on which there are 48 (`Takes`). In a file in
order every line whose first word is `Patch` has this form, and every line of this form is read as a
patch with these values (`patch_form`). The word may be anything, a number too, and may be missing.
-/

namespace ProceduralShapes.Rib

open Decimal (Numeral)

variable {α : Type}

/-! ### Words for numbers -/

section Numbers
variable [Numeral α]

/- Every word is a number, and these are the numbers. -/
abbrev Spell (ws : List String) (xs : List α) : Prop :=
  List.Forall₂ (fun word x => Decimal.read? word = some x) ws xs

theorem spell_append_iff {ws ws' : List String} {xs : List α} :
    Spell (ws ++ ws') xs ↔ ∃ ys zs, Spell ws ys ∧ Spell ws' zs ∧ xs = ys ++ zs := by
  constructor
  · intro h
    induction ws generalizing xs with
    | nil => exact ⟨[], xs, .nil, h, rfl⟩
    | cons word ws ih =>
      obtain ⟨x, xs', hx, hxs', rfl⟩ := List.forall₂_cons_left_iff.1 h
      obtain ⟨ys, zs, hys, hzs, rfl⟩ := ih hxs'
      exact ⟨x :: ys, zs, .cons hx hys, hzs, rfl⟩
  · rintro ⟨ys, zs, hys, hzs, rfl⟩
    exact List.rel_append hys hzs

theorem number_eq_ok_iff {line : Nat} {word : String} {x : α} :
    number line word = .ok x ↔ Decimal.read? word = some x := by
  unfold number
  cases Decimal.read? (α := α) word with
  | none => simp
  | some y => simp

theorem numbers_eq_ok_iff {line : Nat} {ws : List String} {xs : List α} :
    numbers line ws = .ok xs ↔ Spell ws xs := by
  rw [numbers, Fallible.mapM_eq_ok_iff]
  simp only [number_eq_ok_iff]

theorem patchArguments_eq_ok_iff {line : Nat} {args : List String} {xs : List α} :
    patchArguments line args = .ok xs ↔
      (∃ word rest, args = word :: rest ∧ unquoted word = "bicubic") ∧ Spell (args.drop 2) xs := by
  have hbasis : unquoted (args.headD "") = "bicubic" ↔
      ∃ word rest, args = word :: rest ∧ unquoted word = "bicubic" := by
    cases args with
    | nil =>
      constructor
      · intro h
        exact absurd h (by decide)
      · rintro ⟨word, rest, hnone, -⟩
        cases hnone
    | cons word rest =>
      constructor
      · intro h
        exact ⟨word, rest, rfl, h⟩
      · rintro ⟨word', rest', heq, h⟩
        cases heq
        exact h
  have hvalues : numbers line (args.drop 2) = .ok xs ↔ Spell (args.drop 2) xs := numbers_eq_ok_iff
  unfold patchArguments
  dsimp only
  rw [← hbasis, ← hvalues]
  split
  · rename_i h
    exact ⟨fun hxs => ⟨h, hxs⟩, fun hxs => hxs.2⟩
  · rename_i h
    constructor
    · intro hxs
      cases hxs
    · exact fun hxs => absurd hxs.1 h

end Numbers

/-! ### The lines of a patch -/

section Lines
variable [Numeral α]

/- A patch that has some values takes lines in until it has all of them. -/
inductive Takes : List α → List String → List α → Prop
  | done {values : List α} (h : values.length = 48) : Takes values [] values
  | line {values xs total : List α} {text : String} {more : List String}
      (hshort : values.length < 48) (hxs : Spell (words text) xs)
      (hmore : Takes (values ++ xs) more total) : Takes values (text :: more) total

theorem Takes.length_eq {values total : List α} {more : List String} (h : Takes values more total) :
    total.length = 48 := by
  induction h with
  | done h => exact h
  | line _ _ _ ih => exact ih

/- What is taken in is what the lines say up to the first that completes the patch. -/
theorem takes_iff {values total : List α} {more : List String} :
    Takes values more total ↔ (∃ xs, Spell (more.flatMap words) xs ∧ total = values ++ xs) ∧
      total.length = 48 ∧
      ∀ n < more.length, values.length + ((more.take n).flatMap words).length < 48 := by
  constructor
  · intro h
    refine ⟨?_, h.length_eq, ?_⟩
    · induction h with
      | @done values _ => exact ⟨[], .nil, (List.append_nil values).symm⟩
      | @line values xs _ _ _ _ hxs _ ih =>
        obtain ⟨ys, hys, rfl⟩ := ih
        exact ⟨xs ++ ys, spell_append_iff.2 ⟨xs, ys, hxs, hys, rfl⟩, List.append_assoc values xs ys⟩
    · induction h with
      | done _ => simp
      | line hshort hxs _ ih =>
        intro n hn
        cases n with
        | zero => simpa using hshort
        | succ n =>
          have hrest := ih n (Nat.lt_of_succ_lt_succ hn)
          rw [List.length_append, ← hxs.length_eq] at hrest
          rw [List.take_succ_cons, List.flatMap_cons, List.length_append]
          omega
  · rintro ⟨⟨xs, hxs, rfl⟩, hlength, hshort⟩
    induction more generalizing values xs with
    | nil =>
      obtain rfl := List.forall₂_nil_left_iff.1 hxs
      rw [List.append_nil] at hlength ⊢
      exact .done hlength
    | cons text more ih =>
      obtain ⟨ys, zs, hys, hzs, rfl⟩ := spell_append_iff.1 hxs
      rw [← List.append_assoc] at hlength ⊢
      refine .line (hshort 0 (Nat.succ_pos more.length)) hys (ih zs hzs hlength ?_)
      intro n hn
      have hnext := hshort (n + 1) (Nat.succ_lt_succ hn)
      rw [List.take_succ_cons, List.flatMap_cons, List.length_append, hys.length_eq] at hnext
      rw [List.length_append]
      omega

/- The basis, a word that is not looked at, and the values: on the line and on those that follow it
up to the first that brings their number to 48. -/
structure PatchForm (args more : List String) (values : List α) : Prop where
  basis : ∃ word rest, args = word :: rest ∧ unquoted word = "bicubic"
  spell : Spell (args.drop 2 ++ more.flatMap words) values
  length_eq : values.length = 48
  shortest : ∀ n < more.length, (args.drop 2 ++ (more.take n).flatMap words).length < 48

theorem patchForm_iff (line : Nat) {args more : List String} {values : List α} :
    PatchForm args more values ↔
      ∃ xs, patchArguments line args = .ok xs ∧ Takes xs more values := by
  constructor
  · intro h
    obtain ⟨xs, ys, hxs, hys, hvalues⟩ := spell_append_iff.1 h.spell
    refine ⟨xs, patchArguments_eq_ok_iff.2 ⟨h.basis, hxs⟩, ?_⟩
    refine takes_iff.2 ⟨⟨ys, hys, hvalues⟩, h.length_eq, fun n hn => ?_⟩
    have hshort := h.shortest n hn
    rwa [List.length_append, hxs.length_eq] at hshort
  · rintro ⟨xs, hargs, htakes⟩
    obtain ⟨hbasis, hxs⟩ := patchArguments_eq_ok_iff.1 hargs
    obtain ⟨⟨ys, hys, rfl⟩, hlength, hshort⟩ := takes_iff.1 htakes
    refine ⟨hbasis, spell_append_iff.2 ⟨xs, ys, hxs, hys, rfl⟩, hlength, fun n hn => ?_⟩
    rw [List.length_append, hxs.length_eq]
    exact hshort n hn

end Lines

/-! ### Reading a patch -/

namespace State

section Reading
variable [Scalar α]

/- The state with the patch of these values read. -/
def withPatch (s : State α) (values : List α) (h : values.toArray.size = 48) : State α :=
  { s with
    waiting := none
    patches := s.patches.push (Patch.ofNet (net values.toArray h) s.current .bezier) }

/- What a patch with fewer values than it needs leaves. -/
theorem settle_short (s : State α) (n : Nat) {values : List α} (h : values.length < 48) :
    s.settle ⟨n, values.toArray⟩ = .ok { s with waiting := some ⟨n, values.toArray⟩ } := by
  have hsize : ¬values.toArray.size = 48 := Nat.ne_of_lt h
  have hlt : values.toArray.size < patchValues := h
  rw [settle, dif_neg hsize, if_pos hlt]

theorem settle_full (s : State α) (n : Nat) {values : List α} (h : values.toArray.size = 48) :
    s.settle ⟨n, values.toArray⟩ = .ok (s.withPatch values h) := dif_pos h

theorem length_le_of_settle {s next : State α} {n : Nat} {values : List α}
    (h : s.settle ⟨n, values.toArray⟩ = .ok next) : values.length ≤ 48 := by
  unfold settle at h
  split at h
  · rename_i hsize
    exact Nat.le_of_eq hsize
  · split at h
    · rename_i hlt
      exact Nat.le_of_lt hlt
    · cases h

variable [Trig α] [SquareRoot α] [Finiteness α] [LT α] [DecidableLT α] [Numeral α]

theorem takeWords_patch {s : State α} (h : s.waiting = none) (line : Nat) (args : List String) :
    s.takeWords line ("Patch" :: args) =
      patchArguments line args >>= fun xs => s.settle ⟨line, xs.toArray⟩ := by
  have hname : ("Patch".toList.head? = some '#') = False := by decide
  unfold takeWords
  rw [h]
  simp only [hname, if_false, Directive.read]
  cases patchArguments (α := α) line args with
  | error e => rfl
  | ok xs => rfl

theorem takeWords_waiting {s : State α} {n : Nat} {values : List α}
    (h : s.waiting = some ⟨n, values.toArray⟩) (line : Nat) (ws : List String) :
    s.takeWords line ws = numbers line ws >>= fun xs => s.settle ⟨n, (values ++ xs).toArray⟩ := by
  unfold takeWords
  rw [h]
  cases numbers (α := α) line ws with
  | error e => rfl
  | ok xs => simp [bind, Except.bind]

/- All the lines that a patch takes in are read, and it is read with them. -/
theorem takeLines_of_takes {values total : List α} {more : List String}
    (h : Takes values more total) (s : State α) (n line : Nat) :
    ∃ hsize next, s.settle ⟨n, values.toArray⟩ = .ok next ∧
      next.takeLines line more = (s.withPatch total hsize, none) := by
  induction h generalizing s line with
  | done hlength => exact ⟨hlength, _, settle_full s n hlength, rfl⟩
  | @line values xs total text more hshort hxs _ ih =>
    obtain ⟨hsize, next, hnext, hrest⟩ :=
      ih { s with waiting := some ⟨n, values.toArray⟩ } (line + 1)
    refine ⟨hsize, _, settle_short s n hshort, ?_⟩
    rw [takeLines, takeWords_waiting rfl, numbers_eq_ok_iff.2 hxs]
    simp only [bind, Except.bind, hnext]
    exact hrest

/- Lines are read to the end with no patch waiting only if the patch takes in the first of them. -/
theorem takes_of_takeLines {s next last : State α} {n line : Nat} {values : List α}
    {b : List String} (hsettle : s.settle ⟨n, values.toArray⟩ = .ok next)
    (h : next.takeLines line b = (last, none)) (hlast : last.waiting = none) :
    ∃ more after total, b = more ++ after ∧ Takes values more total := by
  have hle := length_le_of_settle hsettle
  -- Every line leaves a patch with more values to wait, so the induction is for any values.
  induction b generalizing s next values line with
  | nil =>
    rcases Nat.lt_or_eq_of_le hle with hshort | hfull
    · rw [settle_short s n hshort] at hsettle
      cases hsettle
      cases h
      cases hlast
    · exact ⟨[], [], values, rfl, .done hfull⟩
  | cons text rest ih =>
    rcases Nat.lt_or_eq_of_le hle with hshort | hfull
    · rw [settle_short s n hshort] at hsettle
      cases hsettle
      rw [takeLines, takeWords_waiting rfl] at h
      cases hnumbers : numbers (α := α) line (words text) with
      | error e =>
        rw [hnumbers] at h
        cases h
      | ok xs =>
        rw [hnumbers] at h
        simp only [bind, Except.bind] at h
        split at h
        · rename_i next' hnext
          obtain ⟨more, after, total, rfl, htakes⟩ := ih hnext h (length_le_of_settle hnext)
          exact ⟨text :: more, after, total, rfl,
            .line hshort (numbers_eq_ok_iff.1 hnumbers) htakes⟩
        · cases h
    · exact ⟨[], text :: rest, values, rfl, .done hfull⟩

end Reading

end State

/-! ### Files -/

section Files
variable [Scalar α] [Trig α] [SquareRoot α] [Finiteness α] [LT α] [DecidableLT α] [Numeral α]

/- The file behind a patch adds to the patches and changes none. -/
theorem patches_append {a b : List String} {before ps : Array (Patch α)}
    (ha : (readLines a : Reading α).patches = .ok before)
    (h : (readLines (a ++ b) : Reading α).patches = .ok ps) : ∃ later, ps = before ++ later := by
  obtain ⟨hread, rfl⟩ := error?_of_patches_ok ha
  rw [readLines_append_behind hread b, patches_behind, Fallible.map_eq_ok_iff] at h
  obtain ⟨later, -, hlater⟩ := h
  exact ⟨later, hlater.symm⟩

/- A line of the form, and the lines it goes on over, are read as a patch of the values. -/
theorem patches_of_form {text : String} {args : List String} (hwords : words text = "Patch" :: args)
    {a more : List String} {values : List α} (hform : PatchForm args more values)
    {before : Array (Patch α)} (ha : (readLines a : Reading α).patches = .ok before) :
    ∃ hsize : values.toArray.size = 48, (readLines (a ++ text :: more) : Reading α).patches =
      .ok (before.push (Patch.ofNet (net values.toArray hsize)
        (readLines a : Reading α).state.current .bezier)) := by
  obtain ⟨hread, rfl⟩ := error?_of_patches_ok ha
  generalize (readLines a : Reading α).state = s at hread ⊢
  rw [readLines_eq_reading] at hread
  obtain ⟨htake, hwaiting⟩ := State.takeLines_of_reading hread
  obtain ⟨xs, hargs, htakes⟩ := (patchForm_iff (1 + a.length)).1 hform
  obtain ⟨hsize, next, hnext, hrest⟩ :=
    State.takeLines_of_takes htakes s (1 + a.length) (1 + a.length + 1)
  refine ⟨hsize, ?_⟩
  rw [readLines_eq_reading, State.reading_append htake, State.reading_cons, hwords,
    State.takeWords_patch hwaiting, hargs]
  simp only [bind, Except.bind, hnext, State.reading, hrest]
  rfl

/- A line of a file in order that is read as a patch has the form. -/
theorem form_of_patches {text : String} {args : List String} (hwords : words text = "Patch" :: args)
    {a b : List String} {s last : State α} (ha : State.initial.takeLines 1 a = (s, none))
    (hwaiting : s.waiting = none) (h : readLines (a ++ text :: b) = ⟨last, none⟩) :
    ∃ more after values, b = more ++ after ∧ PatchForm (α := α) args more values := by
  rw [readLines_eq_reading, State.reading_append ha, State.reading_cons, hwords,
    State.takeWords_patch hwaiting] at h
  cases hargs : patchArguments (α := α) (1 + a.length) args with
  | error e =>
    rw [hargs] at h
    cases h
  | ok xs =>
    rw [hargs] at h
    simp only [bind, Except.bind] at h
    split at h
    · rename_i next hnext
      obtain ⟨htake, hlast⟩ := State.takeLines_of_reading h
      obtain ⟨more, after, values, hb, htakes⟩ := State.takes_of_takeLines hnext htake hlast
      exact ⟨more, after, values, hb, (patchForm_iff (1 + a.length)).2 ⟨xs, hargs, htakes⟩⟩
    · cases h

/- Where `Patch` is no number, a line of a file in order that begins with it is read as a patch. -/
theorem idle_of_patches (hname : (Decimal.read? "Patch" : Option α) = none) {text : String}
    {args : List String} (hwords : words text = "Patch" :: args) {a b : List String}
    {ps : Array (Patch α)} (h : (readLines (a ++ text :: b) : Reading α).patches = .ok ps) :
    ∃ s : State α, State.initial.takeLines 1 a = (s, none) ∧ s.waiting = none := by
  cases htake : (State.initial : State α).takeLines 1 a with
  | mk s error? =>
    cases error? with
    | some e =>
      rw [(readLines_of_error htake (text :: b)).1] at h
      cases h
    | none =>
      refine ⟨s, rfl, Option.eq_none_iff_forall_ne_some.2 fun w hw => ?_⟩
      rw [readLines_eq_reading, State.reading_append htake, State.reading_cons, hwords,
        State.takeWords, hw] at h
      cases hnumbers : numbers (α := α) (1 + a.length) ("Patch" :: args) with
      | error e =>
        simp only [hnumbers] at h
        cases h
      | ok xs =>
        obtain ⟨x, -, hx, -⟩ := List.forall₂_cons_left_iff.1 (numbers_eq_ok_iff.1 hnumbers)
        rw [hname] at hx
        cases hx

end Files

/- In a file in order a line that begins with `Patch` has the form, and every line of the form is
read as a patch of its values, under the transform before it. -/
theorem patch_form {text : String} {args : List String} (hwords : words text = "Patch" :: args)
    (a b : List String) :
    (∀ ps, (readLines (a ++ text :: b) : Reading Float).patches = .ok ps →
      ∃ before more after values later, (readLines a : Reading Float).patches = .ok before ∧
        b = more ++ after ∧ PatchForm args more values ∧
        ∃ hsize : values.toArray.size = 48,
          ps = before.push (Patch.ofNet (net values.toArray hsize)
            (readLines a : Reading Float).state.current .bezier) ++ later) ∧
    ∀ before values, (readLines a : Reading Float).patches = .ok before →
      PatchForm args b values →
      ∃ hsize : values.toArray.size = 48,
        (readLines (a ++ text :: b) : Reading Float).patches =
          .ok (before.push (Patch.ofNet (net values.toArray hsize)
            (readLines a : Reading Float).state.current .bezier)) := by
  have hname : (Decimal.read? "Patch" : Option Float) = none := by decide +kernel
  refine ⟨fun ps hps => ?_, fun before values ha hform => patches_of_form hwords hform ha⟩
  obtain ⟨s, htake, hwaiting⟩ := idle_of_patches hname hwords hps
  have ha : (readLines a : Reading Float).patches = .ok s.patches := by
    rw [patches_of_takeLines htake, hwaiting]
  obtain ⟨more, after, values, rfl, hform⟩ :=
    form_of_patches hwords htake hwaiting (error?_of_patches_ok hps).1
  obtain ⟨hsize, hpatch⟩ := patches_of_form hwords hform ha
  have hsplit : a ++ text :: (more ++ after) = (a ++ text :: more) ++ after := by simp
  rw [hsplit] at hps
  obtain ⟨later, hlater⟩ := patches_append hpatch hps
  exact ⟨s.patches, more, after, values, later, ha, rfl, hform, hsize, hlater⟩

/- The words behind `Patch` on the first line of the patch over two lines. -/
def splitArguments : List String :=
  ["\"bicubic\"", "\"P\"", "0", "0", "0", "0", "1", "0", "0", "2", "0", "0", "3", "0", "1", "0",
    "0", "1", "1", "0", "1", "2", "0", "1", "3", "0"]

/- The patch has the form, with its second line, and it is read behind a move too. -/
theorem splitPatch_formed : words (splitPatch.1.headD "") = "Patch" :: splitArguments ∧
    ∃ values, PatchForm splitArguments splitPatch.2 values ∧
      ∃ (hsize : values.toArray.size = 48) (t : Transform Float),
        (readLines ("Translate 1 0 0" :: (splitPatch.1 ++ splitPatch.2)) : Reading Float).patches =
          .ok #[Patch.ofNet (net values.toArray hsize) t .bezier] := by
  have hwords : words (splitPatch.1.headD "") = "Patch" :: splitArguments := by decide
  obtain ⟨ps, -, hps⟩ := splitPatch_accepted
  obtain ⟨_, more, after, values, _, -, hsplit, hform, -⟩ :=
    (patch_form hwords [] splitPatch.2).1 ps hps
  obtain rfl : splitPatch.2 = more := by
    cases more with
    | nil =>
      -- The first line alone has 24 values.
      have hlength := hform.spell.length_eq
      rw [hform.length_eq] at hlength
      exact absurd hlength (by decide)
    | cons text more =>
      obtain ⟨rfl, hnone⟩ := List.cons_eq_cons.1 hsplit
      rw [(List.append_eq_nil_iff.1 hnone.symm).1]
      rfl
  obtain ⟨hmove, hsize⟩ : (readLines ["Translate 1 0 0"] : Reading Float).error? = none ∧
      (readLines ["Translate 1 0 0"] : Reading Float).state.patches.size = 0 := by decide +kernel
  have hbefore : (readLines ["Translate 1 0 0"] : Reading Float).patches = .ok #[] := by
    rw [Reading.patches, hmove, Array.eq_empty_of_size_eq_zero hsize]
  obtain ⟨hfull, hread⟩ :=
    (patch_form hwords ["Translate 1 0 0"] splitPatch.2).2 #[] values hbefore hform
  exact ⟨hwords, values, hform, hfull, _, hread⟩

/- A number stands where the name should, and 48 behind it. -/
def unnamedPatch : String :=
  "Patch \"bicubic\" [7 0 0 0 0 1 0 0 2 0 0 3 0 1 0 0 1 1 0 1 2 0 1 3 0 " ++
    "2 0 0 2 1 0 2 2 0 2 3 0 3 0 0 3 1 0 3 2 0 3 3 0]"

/- Behind the basis there are 49 numbers, and the file is in order. -/
theorem unnamedPatch_accepted :
    (∃ values, words unnamedPatch = "Patch" :: "\"bicubic\"" :: values ∧ values.length = 49 ∧
      ∀ word ∈ values, (Decimal.read? word : Option Float).isSome = true) ∧
    ∃ ps, ps.size = 1 ∧ (readLines [unnamedPatch] : Reading Float).patches = .ok ps := by
  obtain ⟨hwords, hlength, hvalues⟩ :
      words unnamedPatch = "Patch" :: "\"bicubic\"" :: (words unnamedPatch).drop 2 ∧
      ((words unnamedPatch).drop 2).length = 49 ∧ ∀ word ∈ (words unnamedPatch).drop 2,
        (Decimal.read? word : Option Float).isSome = true := by decide +kernel
  obtain ⟨hnone, hsize⟩ : (readLines [unnamedPatch] : Reading Float).error? = none ∧
      (readLines [unnamedPatch] : Reading Float).state.patches.size = 1 := by decide +kernel
  exact ⟨⟨_, hwords, hlength, hvalues⟩, _, hsize, by rw [Reading.patches, hnone]⟩

end ProceduralShapes.Rib
