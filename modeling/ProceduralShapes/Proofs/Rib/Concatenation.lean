import ProceduralShapes.Proofs.Rib.History

/-!
# Files written one behind the other

Reading depends on what was read before only through the transforms and the patch that waits.
Lines, patches and open blocks that came before are a past that reading carries along untouched
(`State.behind`): line numbers grow by the lines of the past, and the patches of the past stay in
front. So a file followed by another is read as the first and then, from its transforms, the
second.
-/

namespace ProceduralShapes.Rib

open Decimal (Numeral)

variable {α : Type}

/-! ### The past of a state -/

/- What came before: so many lines, the transforms saved by blocks still open, and what was
collected. -/
structure Past (α : Type) where
  lines : Nat
  saved : List (Transform α) := []
  patches : Array (Patch α) := #[]
  skipped : Array (Nat × String) := #[]

def Error.behind (lines : Nat) (e : Error) : Error := { e with line := e.line + lines }

def Waiting.behind (lines : Nat) (w : Waiting α) : Waiting α := { w with line := w.line + lines }

def Heard.behind (lines : Nat) : Heard α → Heard α
  | .nothing => .nothing
  | .part w => .part (w.behind lines)
  | .entry line d => .entry (line + lines) d

/- The state with the past before it. -/
def State.behind (p : Past α) (s : State α) : State α where
  current := s.current
  saved := s.saved ++ p.saved
  waiting := s.waiting.map (Waiting.behind p.lines)
  patches := p.patches ++ s.patches
  skipped := p.skipped ++ s.skipped.map fun (line, name) => (line + p.lines, name)

def Reading.behind (p : Past α) (r : Reading α) : Reading α :=
  ⟨r.state.behind p, r.error?.map (Error.behind p.lines)⟩

theorem patches_behind (p : Past α) (r : Reading α) :
    (r.behind p).patches = (r.patches.mapError (Error.behind p.lines)).map (p.patches ++ ·) := by
  obtain ⟨s, error?⟩ := r
  cases error? with
  | none => rfl
  | some e => rfl

theorem error?_of_patches_ok {r : Reading α} {ps : Array (Patch α)} (h : r.patches = .ok ps) :
    r = ⟨r.state, none⟩ ∧ r.state.patches = ps := by
  obtain ⟨s, error?⟩ := r
  cases error? with
  | none => exact ⟨rfl, Except.ok.inj h⟩
  | some e => cases h

theorem error?_of_patches_error {r : Reading α} {e : Error} (h : r.patches = .error e) :
    r = ⟨r.state, some e⟩ := by
  obtain ⟨s, error?⟩ := r
  cases error? with
  | none => cases h
  | some e' =>
    cases h
    rfl

/-! ### Numbers and directives -/

theorem gather_behind (lines : Nat) (w : Waiting α) : gather (w.behind lines) =
    ((gather w).mapError (Error.behind lines)).map (Heard.behind lines) := by
  by_cases hsize : w.values.size = patchValues
  · simp [gather, Waiting.behind, hsize, Except.map, Heard.behind]
  · by_cases hlt : w.values.size < patchValues
    · simp [gather, Waiting.behind, hsize, hlt, Except.map, Heard.behind]
    · simp [gather, Waiting.behind, hsize, hlt, Except.map, Error.behind]

theorem heard_behind (line lines : Nat) (d : Directive α) : d.heard (line + lines) =
    ((d.heard line).mapError (Error.behind lines)).map (Heard.behind lines) := by
  cases d with
  | begin => rfl
  | finish => rfl
  | move t => rfl
  | patch values => exact gather_behind lines ⟨line, values.toArray⟩
  | other name => rfl

section Directives
variable [Numeral α] {line : Nat}

theorem number_behind (lines : Nat) (word : String) :
    (number (line + lines) word : Except Error α) =
      (number line word).mapError (Error.behind lines) := by
  unfold number
  cases Decimal.read? (α := α) word with
  | none => rfl
  | some x => rfl

theorem numbers_behind (lines : Nat) (ws : List String) :
    (numbers (line + lines) ws : Except Error (List α)) =
      (numbers line ws).mapError (Error.behind lines) := by
  unfold numbers
  induction ws with
  | nil => rfl
  | cons word ws ih =>
    simp only [List.mapM_cons, Fallible.mapError_bind, ih, number_behind]
    rfl

theorem triple_behind (lines : Nat) (name : String) (args : List String) :
    (triple (line + lines) name args : Except Error (Vec α)) =
      (triple line name args).mapError (Error.behind lines) := by
  unfold triple
  split
  · simp only [number_behind, Fallible.mapError_bind]
    rfl
  · rfl

theorem turn_behind (lines : Nat) (name : String) (args : List String) :
    (turn (line + lines) name args : Except Error (α × Vec α)) =
      (turn line name args).mapError (Error.behind lines) := by
  unfold turn
  split
  · simp only [number_behind, Fallible.mapError_bind]
    rfl
  · rfl

theorem patchArguments_behind (lines : Nat) (args : List String) :
    (patchArguments (line + lines) args : Except Error (List α)) =
      (patchArguments line args).mapError (Error.behind lines) := by
  unfold patchArguments
  dsimp only
  split
  · exact numbers_behind lines _
  · rfl

theorem read_behind [Scalar α] [Trig α] [SquareRoot α] [Finiteness α] [LT α] [DecidableLT α]
    (lines : Nat) (name : String) (args : List String) :
    (Directive.read (line + lines) name args : Except Error (Directive α)) =
      (Directive.read line name args).mapError (Error.behind lines) := by
  unfold Directive.read
  split
  · rfl
  · rfl
  · rw [triple_behind, Fallible.mapError_map]
  · rw [triple_behind, Fallible.mapError_map]
  · rw [turn_behind, Fallible.mapError_bind]
    refine congrArg _ (funext fun turned => ?_)
    dsimp only
    split
    · rfl
    · rfl
  · rw [patchArguments_behind, Fallible.mapError_map]
  · rfl

end Directives

/-! ### Lines -/

namespace State

/- The transforms of a state, with nothing read yet. -/
def afresh (s : State α) : State α := ⟨s.current, s.saved, none, #[], #[]⟩

theorem afresh_behind {s : State α} (h : s.waiting = none) (lines : Nat) :
    s.afresh.behind { lines, patches := s.patches, skipped := s.skipped } = s := by
  obtain ⟨current, saved, waiting, patches, skipped⟩ := s
  cases h
  simp [State.behind, afresh]

theorem endError?_behind (p : Past α) (s : State α) :
    (s.behind p).endError? = s.endError?.map (Error.behind p.lines) := by
  unfold endError? State.behind
  cases s.waiting with
  | none => rfl
  | some w => rfl

section Lines
variable [Scalar α] (p : Past α) (s : State α)

theorem settle_behind (line : Nat) (values : Array α) :
    (s.behind p).settle ⟨line + p.lines, values⟩ =
      ((s.settle ⟨line, values⟩).mapError (Error.behind p.lines)).map (State.behind p) := by
  by_cases hsize : values.size = 48
  · simp [settle, hsize, State.behind, Except.map, Array.push_append]
  · by_cases hlt : values.size < patchValues
    · simp [settle, hsize, hlt, State.behind, Waiting.behind, Except.map]
    · simp [settle, hsize, hlt, Except.map, Error.behind]

/- Only the end of a block that the past began can tell the two apart. -/
theorem perform_behind (line : Nat) (d : Directive α)
    (hp : p.saved = [] ∨ s.perform line d ≠ .error ⟨line, .unbalancedEnd⟩) :
    (s.behind p).perform (line + p.lines) d =
      ((s.perform line d).mapError (Error.behind p.lines)).map (State.behind p) := by
  cases d with
  | begin => rfl
  | finish =>
    simp only [perform] at hp ⊢
    cases hsaved : s.saved with
    | nil =>
      rw [hsaved] at hp
      have hnone : p.saved = [] := hp.resolve_right (fun hne => hne rfl)
      simp only [State.behind, hsaved, hnone, List.append_nil]
      rfl
    | cons t rest =>
      simp only [State.behind, hsaved, List.cons_append]
      rfl
  | move t => rfl
  | patch values => exact settle_behind p s line values.toArray
  | other name =>
    simp only [perform, State.behind, Fallible.mapError_ok, Except.map, Array.push_append,
      Array.map_push]

theorem obey_behind (h : Heard α)
    (hp : p.saved = [] ∨ ∀ line, s.obey h ≠ .error ⟨line, .unbalancedEnd⟩) :
    (s.behind p).obey (h.behind p.lines) =
      ((s.obey h).mapError (Error.behind p.lines)).map (State.behind p) := by
  cases h with
  | nothing => rfl
  | part w => rfl
  | entry line d => exact perform_behind p s.idle line d (hp.imp_right fun hne => hne line)

end Lines

section Reading
variable [Scalar α] [Trig α] [SquareRoot α] [Finiteness α] [LT α] [DecidableLT α] [Numeral α]

theorem hear_behind (lines : Nat) (w? : Option (Waiting α)) (line : Nat) (ws : List String) :
    hear (w?.map (Waiting.behind lines)) (line + lines) ws =
      ((hear w? line ws).mapError (Error.behind lines)).map (Heard.behind lines) := by
  unfold hear
  cases w? with
  | some w =>
    simp only [Option.map_some, numbers_behind]
    cases numbers (α := α) line ws with
    | error e => rfl
    | ok xs => exact gather_behind lines ⟨w.line, w.values ++ xs⟩
  | none =>
    simp only [Option.map_none]
    cases ws with
    | nil => rfl
    | cons name args =>
      simp only
      split
      · rfl
      · rw [read_behind]
        cases Directive.read (α := α) line name args with
        | error e => rfl
        | ok d => exact heard_behind line lines d

theorem takeWords_behind (p : Past α) (s : State α) (line : Nat) (ws : List String)
    (hp : p.saved = [] ∨ ∀ n, s.takeWords line ws ≠ .error ⟨n, .unbalancedEnd⟩) :
    (s.behind p).takeWords (line + p.lines) ws =
      ((s.takeWords line ws).mapError (Error.behind p.lines)).map (State.behind p) := by
  rw [takeWords_eq] at hp ⊢
  rw [takeWords_eq]
  have hhear := hear_behind p.lines s.waiting line ws
  cases hheard : hear s.waiting line ws with
  | error e =>
    rw [hheard] at hhear
    simp only [State.behind, hhear]
    rfl
  | ok h =>
    rw [hheard] at hhear hp
    have hobey := obey_behind p s h hp
    simp only [State.behind] at hobey ⊢
    rw [hhear]
    exact hobey

theorem takeLines_behind (p : Past α) (s : State α) (line : Nat) (texts : List String)
    (hp : p.saved = [] ∨ ∀ n, (s.takeLines line texts).2 ≠ some ⟨n, .unbalancedEnd⟩) :
    (s.behind p).takeLines (line + p.lines) texts =
      ((s.takeLines line texts).1.behind p,
        (s.takeLines line texts).2.map (Error.behind p.lines)) := by
  induction texts generalizing s line with
  | nil => rfl
  | cons text rest ih =>
    have hword : p.saved = [] ∨
        ∀ n, s.takeWords line (words text) ≠ .error ⟨n, .unbalancedEnd⟩ := by
      refine hp.imp_right fun hne n herror => ?_
      rw [takeLines, herror] at hne
      exact hne n rfl
    rw [takeLines, takeLines, takeWords_behind p s line _ hword]
    rw [takeLines] at hp
    cases htake : s.takeWords line (words text) with
    | error e => rfl
    | ok next =>
      rw [htake] at hp
      have hline : line + p.lines + 1 = line + 1 + p.lines := by omega
      simp only [Fallible.mapError_ok, Except.map]
      rw [hline]
      exact ih next (line + 1) hp

theorem takeLines_append (s : State α) (line : Nat) (a b : List String) :
    s.takeLines line (a ++ b) =
      match s.takeLines line a with
      | (next, none) => next.takeLines (line + a.length) b
      | (last, some e) => (last, some e) := by
  induction a generalizing s line with
  | nil => rfl
  | cons text rest ih =>
    rw [List.cons_append, takeLines, takeLines]
    cases s.takeWords line (words text) with
    | error e => rfl
    | ok next =>
      have hline : line + (text :: rest).length = line + 1 + rest.length := by
        rw [List.length_cons]
        omega
      simp only
      rw [hline]
      exact ih next (line + 1)

/-! ### Files -/

/- Reads lines to the end of the file, the first of them numbered `line`. -/
def reading (s : State α) (line : Nat) (texts : List String) : Reading α :=
  match s.takeLines line texts with
  | (last, some e) => ⟨last, some e⟩
  | (last, none) => ⟨last, last.endError?⟩

theorem reading_behind (p : Past α) (s : State α) (line : Nat) (texts : List String)
    (hp : p.saved = []) :
    (s.behind p).reading (line + p.lines) texts = (s.reading line texts).behind p := by
  unfold reading
  rw [takeLines_behind p s line texts (.inl hp)]
  obtain ⟨last, error?⟩ := s.takeLines line texts
  cases error? with
  | none => exact congrArg (Reading.mk _) (endError?_behind p last)
  | some e => rfl

/- With no patch waiting, what was read before is a past. -/
theorem reading_eq_behind {s : State α} (h : s.waiting = none) (lines : Nat)
    (texts : List String) : s.reading (1 + lines) texts = (s.afresh.reading 1 texts).behind
      { lines, patches := s.patches, skipped := s.skipped } := by
  have hafresh := reading_behind { lines, patches := s.patches, skipped := s.skipped } s.afresh 1
    texts rfl
  rwa [afresh_behind h] at hafresh

theorem reading_append {s next : State α} {line : Nat} {a : List String}
    (h : s.takeLines line a = (next, none)) (b : List String) :
    s.reading line (a ++ b) = next.reading (line + a.length) b := by
  rw [reading, takeLines_append, h]
  rfl

/- A file that is in order leaves no patch waiting. -/
theorem takeLines_of_reading {s last : State α} {line : Nat} {texts : List String}
    (h : s.reading line texts = ⟨last, none⟩) :
    s.takeLines line texts = (last, none) ∧ last.waiting = none := by
  unfold reading at h
  split at h
  · cases h
  · rename_i last' htake
    simp only [Reading.mk.injEq] at h
    obtain ⟨rfl, hend⟩ := h
    exact ⟨htake, Option.map_eq_none_iff.1 hend⟩

/- An error that is not the end of the file is found at a line. -/
theorem takeLines_of_reading_error {s last : State α} {line : Nat} {texts : List String} {e : Error}
    (h : s.reading line texts = ⟨last, some e⟩) (he : ∀ k, e.cause ≠ .unexpectedEnd k) :
    s.takeLines line texts = (last, some e) := by
  unfold reading at h
  split at h
  · rename_i htake
    cases h
    exact htake
  · simp only [Reading.mk.injEq] at h
    obtain ⟨rfl, hend⟩ := h
    obtain ⟨w, -, rfl⟩ := Option.map_eq_some_iff.1 hend
    exact absurd rfl (he _)

end Reading

end State

section Files
variable [Scalar α] [Trig α] [SquareRoot α] [Finiteness α] [LT α] [DecidableLT α] [Numeral α]

theorem readLines_eq_reading (texts : List String) :
    (readLines texts : Reading α) = State.initial.reading 1 texts := rfl

/- A file in order with another behind it is read as the first and then, from its transforms, the
second, whose lines have the numbers that follow. -/
theorem readLines_append_behind {a : List String} {s : State α} (h : readLines a = ⟨s, none⟩)
    (b : List String) : readLines (a ++ b) = (s.afresh.reading 1 b).behind
      { lines := a.length, patches := s.patches, skipped := s.skipped } := by
  rw [readLines_eq_reading] at h
  obtain ⟨htake, hwaiting⟩ := State.takeLines_of_reading h
  rw [readLines_eq_reading, State.reading_append htake, State.reading_eq_behind hwaiting]

/- Reading composes over files, and stops at the first error that more lines cannot mend. -/
theorem readLines_append (a : List String) :
    (∀ ps, (readLines a : Reading α).patches = .ok ps → ∀ b,
      let after := (readLines a : Reading α).state.afresh.reading 1 b
      (readLines (a ++ b) : Reading α).patches =
        (match after.patches with
        | .ok more => .ok (ps ++ more)
        | .error e => .error { e with line := e.line + a.length }) ∧
      (readLines (a ++ b) : Reading α).state.current = after.state.current ∧
      (readLines (a ++ b) : Reading α).state.saved = after.state.saved) ∧
    ∀ e, (readLines a : Reading α).patches = .error e → (∀ k, e.cause ≠ .unexpectedEnd k) →
      ∀ b, (readLines (a ++ b) : Reading α).patches = .error e := by
  constructor
  · intro ps hps b
    obtain ⟨hread, rfl⟩ := error?_of_patches_ok hps
    dsimp only
    rw [readLines_append_behind hread b, patches_behind]
    refine ⟨?_, rfl, List.append_nil _⟩
    cases ((readLines a : Reading α).state.afresh.reading 1 b).patches with
    | ok more => rfl
    | error e => rfl
  · intro e he hcause b
    have hread := error?_of_patches_error he
    rw [readLines_eq_reading] at hread
    have htake := State.takeLines_of_reading_error hread hcause
    rw [readLines_eq_reading, State.reading, State.takeLines_append, htake]
    rfl

end Files

/- A block that is left open, with a patch over two lines. -/
def openBlock : List String :=
  ["TransformBegin", "Patch \"bicubic\" \"P\" [0 0 0 0 1 0 0 2 0 0 3 0 1 0 0 1 1 0 1 2 0 1 3 0",
    "2 0 0 2 1 0 2 2 0 2 3 0 3 0 0 3 1 0 3 2 0 3 3 0]"]

theorem openBlock_append :
    (∃ ps, (readLines openBlock : Reading Float).patches = .ok ps ∧ ps.size = 1) ∧
    (readLines (openBlock ++ ["TransformEnd", "TransformEnd"]) : Reading Float).patches =
      .error ⟨5, .unbalancedEnd⟩ ∧
    (readLines ["", "Scale 1 x 1"] : Reading Float).patches = .error ⟨2, .invalidNumber "x"⟩ ∧
    (readLines (["", "Scale 1 x 1"] ++ openBlock) : Reading Float).patches =
      .error ⟨2, .invalidNumber "x"⟩ := by
  obtain ⟨hnone, hsize⟩ : (readLines openBlock : Reading Float).error? = none ∧
      (readLines openBlock : Reading Float).state.patches.size = 1 := by decide +kernel
  have hps : (readLines openBlock : Reading Float).patches =
      .ok (readLines openBlock : Reading Float).state.patches := by rw [Reading.patches, hnone]
  have hmore : ((readLines openBlock : Reading Float).state.afresh.reading 1
      ["TransformEnd", "TransformEnd"]).error? = some ⟨2, .unbalancedEnd⟩ := by decide +kernel
  have hscale : (readLines ["", "Scale 1 x 1"] : Reading Float).error? =
      some ⟨2, .invalidNumber "x"⟩ := by decide +kernel
  have herror : (readLines ["", "Scale 1 x 1"] : Reading Float).patches =
      .error ⟨2, .invalidNumber "x"⟩ := by rw [Reading.patches, hscale]
  refine ⟨⟨_, hps, hsize⟩, ?_, herror, ?_⟩
  · have happend := ((readLines_append openBlock).1 _ hps ["TransformEnd", "TransformEnd"]).1
    rw [happend, Reading.patches, hmore]
    rfl
  · exact (readLines_append ["", "Scale 1 x 1"]).2 _ herror (by simp) openBlock

end ProceduralShapes.Rib
