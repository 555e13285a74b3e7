import ProceduralShapes.Proofs.Rib.Concatenation

/-!
# Comments in a file

A line whose first word begins with `#` is a comment. Between directives it is passed over, so
putting one in changes nothing but the numbers of the lines behind it. While a patch waits, every
line is read for values: a comment put in there is refused, whatever the rest of the file is
(`readLines_insert_comment`).
-/

namespace ProceduralShapes.Rib

open Decimal (Numeral)

variable {α : Type}

/- A line that begins with the word `word`, and this with `#`. -/
def Comment (word text : String) : Prop :=
  ∃ args, words text = word :: args ∧ word.toList.head? = some '#'

/- The error when a line is put in behind the first `lines` ones. -/
def Error.shifted (lines : Nat) (e : Error) : Error :=
  if lines < e.line then { e with line := e.line + 1 } else e

/- An error found in what is read behind so many lines is found one line later. -/
theorem shifted_behind (lines : Nat) {e : Error} (he : 0 < e.line) :
    (e.behind lines).shifted lines = e.behind (lines + 1) := by
  have hlater : lines < e.line + lines := by omega
  exact if_pos hlater

theorem shifted_of_le {lines : Nat} {e : Error} (he : e.line ≤ lines) : e.shifted lines = e :=
  if_neg (Nat.not_lt.2 he)

/-! ### The lines that a result speaks of -/

namespace State

/- A patch that waits began on one of these lines, and an error is about one of them and not the
end of the file. -/
def About (lines : List Nat) : Except Error (State α) → Prop
  | .ok s => ∀ w ∈ s.waiting, w.line ∈ lines
  | .error e => e.line ∈ lines ∧ ∀ k, e.cause ≠ .unexpectedEnd k

section Lines
variable [Scalar α]

theorem about_settle (s : State α) (w : Waiting α) : About [w.line] (s.settle w) := by
  unfold settle
  split
  · intro w' hw'
    cases hw'
  · split
    · intro w' hw'
      cases hw'
      exact List.mem_singleton_self _
    · exact ⟨List.mem_singleton_self _, fun k hk => by cases hk⟩

theorem about_perform {s : State α} (h : s.waiting = none) (line : Nat) (d : Directive α) :
    About [line] (s.perform line d) := by
  have hnone : ∀ w ∈ s.waiting, w.line ∈ [line] := by simp [h]
  cases d with
  | begin => exact hnone
  | finish =>
    cases hsaved : s.saved with
    | nil =>
      simp only [perform, hsaved]
      exact ⟨List.mem_singleton_self _, fun k hk => by cases hk⟩
    | cons t rest =>
      simp only [perform, hsaved]
      exact hnone
  | move t => exact hnone
  | patch values => exact about_settle s ⟨line, values.toArray⟩
  | other name => exact hnone

variable [Trig α] [SquareRoot α] [Finiteness α] [LT α] [DecidableLT α] [Numeral α]

theorem about_takeWords (s : State α) (line : Nat) (ws : List String) :
    About (line :: s.waiting.toList.map Waiting.line) (s.takeWords line ws) := by
  unfold takeWords
  cases hwaiting : s.waiting with
  | some w =>
    dsimp only
    cases hnumbers : numbers (α := α) line ws with
    | error e =>
      have hplain := failsOnly_numbers line ws e hnumbers
      exact ⟨by simp [List.mem_singleton.1 hplain.1], hplain.2.2⟩
    | ok xs =>
      have habout := about_settle s ⟨w.line, w.values ++ xs⟩
      have hline : [w.line] ⊆ line :: (some w).toList.map Waiting.line := by simp
      simp only [bind, Except.bind]
      cases hsettle : s.settle ⟨w.line, w.values ++ xs⟩ with
      | error e =>
        rw [hsettle] at habout
        exact ⟨hline habout.1, habout.2⟩
      | ok next =>
        rw [hsettle] at habout
        exact fun w' hw' => hline (habout w' hw')
  | none =>
    cases ws with
    | nil => simp [About, hwaiting]
    | cons name args =>
      dsimp only
      split
      · simp [About, hwaiting]
      · cases hread : Directive.read (α := α) line name args with
        | error e =>
          have hplain := failsOnly_read line name args e hread
          exact ⟨hplain.1, hplain.2.2⟩
        | ok d => exact about_perform hwaiting line d

/- The end of the file is not found at a line. -/
theorem cause_of_takeLines {s last : State α} {line : Nat} {texts : List String} {e : Error}
    (h : s.takeLines line texts = (last, some e)) : ∀ k, e.cause ≠ .unexpectedEnd k := by
  induction texts generalizing s line with
  | nil => cases h
  | cons text rest ih =>
    have habout := about_takeWords s line (words text)
    rw [takeLines] at h
    cases htake : s.takeWords line (words text) with
    | error e' =>
      rw [htake] at h habout
      cases h
      exact habout.2
    | ok next =>
      rw [htake] at h
      exact ih h

theorem reading_cons (s : State α) (line : Nat) (text : String) (rest : List String) :
    s.reading line (text :: rest) =
      match s.takeWords line (words text) with
      | .ok next => next.reading (line + 1) rest
      | .error e => ⟨s, some e⟩ := by
  rw [reading, takeLines]
  cases s.takeWords line (words text) with
  | error e => rfl
  | ok next => rfl

/- An error is about one of the lines read, or about the line where the waiting patch began. -/
theorem line_of_reading {s : State α} {first line : Nat} {texts : List String} {e : Error}
    (hfirst : first ≤ line) (hwaiting : ∀ w ∈ s.waiting, first ≤ w.line ∧ w.line < line)
    (h : (s.reading line texts).error? = some e) :
    first ≤ e.line ∧ e.line < line + texts.length := by
  induction texts generalizing s line with
  | nil =>
    obtain ⟨w, hw, rfl⟩ := Option.map_eq_some_iff.1 (h : s.endError? = some e)
    exact hwaiting w hw
  | cons text rest ih =>
    have habout := about_takeWords s line (words text)
    have hlines : ∀ n ∈ line :: s.waiting.toList.map Waiting.line, first ≤ n ∧ n < line + 1 := by
      intro n hn
      rcases List.mem_cons.1 hn with rfl | hn
      · omega
      · obtain ⟨w, hw, rfl⟩ := List.mem_map.1 hn
        have hrange := hwaiting w (Option.mem_toList.1 hw)
        omega
    rw [reading_cons] at h
    rw [List.length_cons]
    cases htake : s.takeWords line (words text) with
    | error e' =>
      rw [htake] at h habout
      cases h
      have hrange := hlines _ habout.1
      omega
    | ok next =>
      rw [htake] at h habout
      have hrest := ih (by omega) (fun w hw => hlines _ (habout w hw)) h
      omega

/-! ### A comment line -/

theorem takeWords_comment {word text : String} (hc : Comment word text) {s : State α}
    (h : s.waiting = none) (line : Nat) : s.takeWords line (words text) = .ok s := by
  obtain ⟨args, hwords, hhash⟩ := hc
  unfold takeWords
  rw [h, hwords]
  exact if_pos hhash

/- Inside a patch the first word of the line is no value. -/
theorem takeWords_comment_waiting {word text : String} (hc : Comment word text)
    (hread : (Decimal.read? word : Option α) = none) {s : State α} {w : Waiting α}
    (h : s.waiting = some w) (line : Nat) :
    s.takeWords line (words text) = .error ⟨line, .invalidNumber word⟩ := by
  obtain ⟨args, hwords, -⟩ := hc
  have hnumber : (number line word : Except Error α) = .error ⟨line, .invalidNumber word⟩ := by
    rw [number, hread]
  unfold takeWords
  rw [h, hwords]
  simp only [numbers, List.mapM_cons, hnumber]
  rfl

end Lines

end State

/-! ### Files with a comment put in -/

section Files
variable [Scalar α] [Trig α] [SquareRoot α] [Finiteness α] [LT α] [DecidableLT α] [Numeral α]

/- The lines end inside a patch. -/
def EndsInPatch (α : Type) [Scalar α] [Trig α] [SquareRoot α] [Finiteness α] [LT α] [DecidableLT α]
    [Numeral α] (texts : List String) : Prop :=
  ∃ line count, (readLines texts : Reading α).patches = .error ⟨line, .unexpectedEnd count⟩

theorem patches_of_takeLines {a : List String} {s : State α}
    (h : State.initial.takeLines 1 a = (s, none)) : (readLines a : Reading α).patches =
      match s.waiting with
      | some w => .error ⟨w.line, .unexpectedEnd w.values.size⟩
      | none => .ok s.patches := by
  rw [readLines_eq_reading, State.reading, h]
  simp only [Reading.patches, State.endError?]
  cases s.waiting with
  | some w => rfl
  | none => rfl

theorem endsInPatch_of_waiting {a : List String} {s : State α} {w : Waiting α}
    (h : State.initial.takeLines 1 a = (s, none)) (hwaiting : s.waiting = some w) :
    EndsInPatch α a := by
  refine ⟨w.line, w.values.size, ?_⟩
  rw [patches_of_takeLines h, hwaiting]

theorem not_endsInPatch_of_idle {a : List String} {s : State α}
    (h : State.initial.takeLines 1 a = (s, none)) (hwaiting : s.waiting = none) :
    ¬EndsInPatch α a := by
  intro ⟨line, count, hend⟩
  rw [patches_of_takeLines h, hwaiting] at hend
  cases hend

theorem not_endsInPatch_of_error {a : List String} {s : State α} {e : Error}
    (h : State.initial.takeLines 1 a = (s, some e)) : ¬EndsInPatch α a := by
  intro ⟨line, count, hend⟩
  rw [readLines_eq_reading, State.reading, h] at hend
  cases hend
  exact State.cause_of_takeLines h count rfl

/- An error that the first lines give stands, whatever follows them. -/
theorem readLines_of_error {a : List String} {s : State α} {e : Error}
    (h : State.initial.takeLines 1 a = (s, some e)) (b : List String) :
    (readLines (a ++ b) : Reading α).patches = .error e ∧ e.line ≤ a.length := by
  constructor
  · rw [readLines_eq_reading, State.reading, State.takeLines_append, h]
    rfl
  · have herror : ((State.initial : State α).reading 1 a).error? = some e := by
      rw [State.reading, h]
    have hnone : ∀ w ∈ (State.initial : State α).waiting, 1 ≤ w.line ∧ w.line < 1 := by
      intro w hw
      cases hw
    have hrange := State.line_of_reading (Nat.le_refl 1) hnone herror
    omega

/- Between directives a comment moves what is read behind it by one line. -/
theorem readLines_comment_idle {word text : String} (hc : Comment word text) {a : List String}
    {s : State α} (h : State.initial.takeLines 1 a = (s, none)) (hwaiting : s.waiting = none)
    (b : List String) : (readLines (a ++ text :: b) : Reading α).patches =
      (readLines (a ++ b) : Reading α).patches.mapError (Error.shifted a.length) := by
  have hline : 1 + a.length + 1 = 1 + (a.length + 1) := by omega
  rw [readLines_eq_reading, readLines_eq_reading, State.reading_append h, State.reading_append h,
    State.reading_cons, State.takeWords_comment hc hwaiting]
  simp only
  rw [hline, State.reading_eq_behind hwaiting, State.reading_eq_behind hwaiting, patches_behind,
    patches_behind]
  cases hpatches : (s.afresh.reading 1 b).patches with
  | ok ps => rfl
  | error e =>
    have herror : (s.afresh.reading 1 b).error? = some e := by
      rw [error?_of_patches_error hpatches]
    have hnone : ∀ w ∈ s.afresh.waiting, 1 ≤ w.line ∧ w.line < 1 := by
      intro w hw
      cases hw
    have hpos := (State.line_of_reading (Nat.le_refl 1) hnone herror).1
    exact congrArg Except.error (shifted_behind a.length hpos).symm

/- Inside a patch a comment is refused. -/
theorem readLines_comment_waiting {word text : String} (hc : Comment word text)
    (hread : (Decimal.read? word : Option α) = none) {a : List String} {s : State α}
    {w : Waiting α} (h : State.initial.takeLines 1 a = (s, none)) (hwaiting : s.waiting = some w)
    (b : List String) : (readLines (a ++ text :: b) : Reading α).patches =
      .error ⟨a.length + 1, .invalidNumber word⟩ := by
  rw [readLines_eq_reading, State.reading_append h, State.reading_cons,
    State.takeWords_comment_waiting hc hread hwaiting, Nat.add_comm 1]
  rfl

end Files

/- No number begins with `#`. -/
theorem read?_hash {word : String} (h : word.toList.head? = some '#') :
    (Decimal.read? word : Option Float) = none := by
  have hliteral : Decimal.Literal.read? word = none := by
    obtain ⟨cs, hcs⟩ : ∃ cs, word.toList = '#' :: cs := by
      cases hword : word.toList with
      | nil =>
        rw [hword] at h
        cases h
      | cons c cs =>
        rw [hword] at h
        cases h
        exact ⟨cs, rfl⟩
    have hword : ∀ w : String, w.toList.head? ≠ some '#' →
        String.ofList (('#' :: cs).map Char.toLower) ≠ w := by
      intro w hw heq
      rw [← heq] at hw
      exact hw (by simp)
    have hmagnitude : Decimal.magnitude? ('#' :: cs) = none := by
      unfold Decimal.magnitude?
      dsimp only
      rw [if_neg (not_or.2 ⟨hword "inf" (by decide), hword "infinity" (by decide)⟩),
        if_neg (hword "nan" (by decide))]
      rfl
    have hsign : Text.splitSign ('#' :: cs) = (false, '#' :: cs) := rfl
    rw [Decimal.Literal.read?, hcs, hsign]
    simp only [hmagnitude]
    rfl
  exact congrArg (Option.map Decimal.Literal.toFloat) hliteral

/- A comment put in between two lines of a file changes nothing but the lines of errors behind it,
unless the lines before it end inside a patch: there it is refused as a value. -/
theorem readLines_insert_comment {word text : String} (hc : Comment word text)
    (a b : List String) :
    (¬EndsInPatch Float a → (readLines (a ++ text :: b) : Reading Float).patches =
      (readLines (a ++ b) : Reading Float).patches.mapError (Error.shifted a.length)) ∧
    (EndsInPatch Float a → (readLines (a ++ text :: b) : Reading Float).patches =
      .error ⟨a.length + 1, .invalidNumber word⟩) := by
  have hread : (Decimal.read? word : Option Float) = none := by
    obtain ⟨args, -, hhash⟩ := hc
    exact read?_hash hhash
  cases htake : (State.initial : State Float).takeLines 1 a with
  | mk s error? =>
    cases error? with
    | some e =>
      have hends := not_endsInPatch_of_error htake
      obtain ⟨hwith, hline⟩ := readLines_of_error htake (text :: b)
      have hwithout := (readLines_of_error htake b).1
      refine ⟨fun _ => ?_, fun h => absurd h hends⟩
      rw [hwith, hwithout, Fallible.mapError_error, shifted_of_le hline]
    | none =>
      cases hwaiting : s.waiting with
      | none =>
        have hends := not_endsInPatch_of_idle htake hwaiting
        exact ⟨fun _ => readLines_comment_idle hc htake hwaiting b, fun h => absurd h hends⟩
      | some w =>
        have hends := endsInPatch_of_waiting htake hwaiting
        exact ⟨fun h => absurd hends h,
          fun _ => readLines_comment_waiting hc hread htake hwaiting b⟩

/- A patch over two lines. -/
def splitPatch : List String × List String :=
  (["Patch \"bicubic\" \"P\" [0 0 0 0 1 0 0 2 0 0 3 0 1 0 0 1 1 0 1 2 0 1 3 0"],
    ["2 0 0 2 1 0 2 2 0 2 3 0 3 0 0 3 1 0 3 2 0 3 3 0]"])

theorem comment_note : Comment "#" "# the other half" := ⟨["the", "other", "half"], by decide, rfl⟩

theorem splitPatch_accepted : ∃ ps, ps.size = 1 ∧
    (readLines (splitPatch.1 ++ splitPatch.2) : Reading Float).patches = .ok ps := by
  obtain ⟨hnone, hsize⟩ : (readLines (splitPatch.1 ++ splitPatch.2) : Reading Float).error? = none ∧
      (readLines (splitPatch.1 ++ splitPatch.2) : Reading Float).state.patches.size = 1 := by
    decide +kernel
  exact ⟨_, hsize, by rw [Reading.patches, hnone]⟩

/- A comment is transparent behind the patch and refused inside it. -/
theorem splitPatch_with_comment : Comment "#" "# the other half" ∧
    (∃ ps, ps.size = 1 ∧
      (readLines ((splitPatch.1 ++ splitPatch.2) ++ ["# the other half"]) :
        Reading Float).patches = .ok ps) ∧
    ∀ b, (readLines (splitPatch.1 ++ "# the other half" :: b) : Reading Float).patches =
      .error ⟨2, .invalidNumber "#"⟩ := by
  obtain ⟨ps, hsize, hps⟩ := splitPatch_accepted
  have hbehind := (readLines_insert_comment comment_note (splitPatch.1 ++ splitPatch.2) []).1 (by
    intro ⟨line, count, hend⟩
    rw [hps] at hend
    cases hend)
  rw [List.append_nil, hps] at hbehind
  have hhalf : (readLines splitPatch.1 : Reading Float).error? = some ⟨1, .unexpectedEnd 24⟩ := by
    decide +kernel
  have hends : EndsInPatch Float splitPatch.1 := ⟨1, 24, by rw [Reading.patches, hhalf]⟩
  refine ⟨comment_note, ⟨ps, hsize, hbehind⟩, fun b => ?_⟩
  exact (readLines_insert_comment comment_note splitPatch.1 b).2 hends

/- A file in order is refused with a comment between the lines of its patch. -/
theorem comment_in_patch_refused : Comment "#" "# the other half" ∧
    (∃ ps, (readLines (splitPatch.1 ++ splitPatch.2) : Reading Float).patches = .ok ps) ∧
    (readLines (splitPatch.1 ++ "# the other half" :: splitPatch.2) : Reading Float).patches =
      .error ⟨2, .invalidNumber "#"⟩ := by
  obtain ⟨ps, -, hps⟩ := splitPatch_accepted
  refine ⟨comment_note, ⟨ps, hps⟩, ?_⟩
  have herror : (readLines (splitPatch.1 ++ "# the other half" :: splitPatch.2) :
      Reading Float).error? = some ⟨2, .invalidNumber "#"⟩ := by decide +kernel
  rw [Reading.patches, herror]

end ProceduralShapes.Rib
