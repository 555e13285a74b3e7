import ProceduralShapes.Proofs.Fallible
import ProceduralShapes.Rib.Reader

/-!
# The directives that a file gives

A line is heard and then obeyed. What is heard depends on the line and on the patch that waits,
and on no transform. The history of a file is the list of the directives heard, each with the line
that it begins on and a patch with all of its values; it ends at a line that cannot be understood.
Reading a file is performing its history (`takeLines_run`).
-/

namespace ProceduralShapes.Rib

open Decimal (Numeral)

variable {α : Type}

/-! ### Hearing and obeying -/

/- What a line says: nothing, a part of a patch, or a directive that is complete. -/
inductive Heard (α : Type)
  | nothing
  | part (w : Waiting α)
  | entry (line : Nat) (d : Directive α)

/- The values that a patch has by now. -/
def gather (w : Waiting α) : Except Error (Heard α) :=
  if w.values.size = patchValues then .ok (.entry w.line (.patch w.values.toList))
  else if w.values.size < patchValues then .ok (.part w)
  else .error ⟨w.line, .tooManyValues w.values.size⟩

def Directive.heard (line : Nat) : Directive α → Except Error (Heard α)
  | .patch values => gather ⟨line, values.toArray⟩
  | d => .ok (.entry line d)

section Hearing
variable [Scalar α] [Trig α] [SquareRoot α] [Finiteness α] [LT α] [DecidableLT α] [Numeral α]

def hear (w? : Option (Waiting α)) (line : Nat) (ws : List String) : Except Error (Heard α) :=
  match w? with
  | some w => do
    let xs : List α ← numbers line ws
    gather ⟨w.line, w.values ++ xs⟩
  | none =>
    match ws with
    | [] => .ok .nothing
    | name :: args =>
      if name.toList.head? = some '#' then .ok .nothing
      else Directive.read line name args >>= Directive.heard line

end Hearing

namespace State

/- The state with no patch waiting. -/
def idle (s : State α) : State α := { s with waiting := none }

theorem idle_of_waiting {s : State α} (h : s.waiting = none) : s.idle = s := by
  obtain ⟨current, saved, waiting, patches, skipped⟩ := s
  cases h
  rfl

section Obeying
variable [Scalar α]

def obey (s : State α) : Heard α → Except Error (State α)
  | .nothing => .ok s.idle
  | .part w => .ok { s with waiting := some w }
  | .entry line d => s.idle.perform line d

theorem settle_eq (s : State α) (w : Waiting α) : s.settle w = gather w >>= s.obey := by
  unfold settle gather
  by_cases hsize : w.values.size = 48
  · have hcomplete : w.values.size = patchValues := hsize
    rw [dif_pos hsize, if_pos hcomplete]
    simp only [bind, Except.bind, obey, perform, settle, dif_pos hsize]
    rfl
  · have hcomplete : ¬w.values.size = patchValues := hsize
    rw [dif_neg hsize, if_neg hcomplete]
    by_cases hlt : w.values.size < patchValues
    · rw [if_pos hlt, if_pos hlt]
      rfl
    · rw [if_neg hlt, if_neg hlt]
      rfl

theorem perform_eq {s : State α} (h : s.waiting = none) (line : Nat) (d : Directive α) :
    s.perform line d = d.heard line >>= s.obey := by
  have hidle := idle_of_waiting h
  cases d with
  | patch values => exact settle_eq s ⟨line, values.toArray⟩
  | begin => exact congrArg (State.perform · line .begin) hidle.symm
  | finish => exact congrArg (State.perform · line .finish) hidle.symm
  | move t => exact congrArg (State.perform · line (.move t)) hidle.symm
  | other name => exact congrArg (State.perform · line (.other name)) hidle.symm

theorem takeWords_eq [Trig α] [SquareRoot α] [Finiteness α] [LT α] [DecidableLT α] [Numeral α]
    (s : State α) (line : Nat) (ws : List String) :
    s.takeWords line ws = hear s.waiting line ws >>= s.obey := by
  unfold takeWords hear
  cases hwaiting : s.waiting with
  | some w =>
    dsimp only
    cases numbers (α := α) line ws with
    | error e => rfl
    | ok xs => exact settle_eq s _
  | none =>
    have hidle := idle_of_waiting hwaiting
    cases ws with
    | nil => exact congrArg Except.ok hidle.symm
    | cons name args =>
      dsimp only
      split
      · exact congrArg Except.ok hidle.symm
      · cases Directive.read (α := α) line name args with
        | error e => rfl
        | ok d => exact perform_eq hwaiting line d

end Obeying

end State

/-! ### Lines that cannot be understood -/

/- An error about one of these lines, and neither an end without a begin nor the end of the file. -/
def Error.Plain (lines : List Nat) (e : Error) : Prop :=
  e.line ∈ lines ∧ e.cause ≠ .unbalancedEnd ∧ ∀ k, e.cause ≠ .unexpectedEnd k

theorem Error.Plain.mono {lines lines' : List Nat} {e : Error} (h : e.Plain lines)
    (hsub : lines ⊆ lines') : e.Plain lines' := ⟨hsub h.1, h.2⟩

theorem failsOnly_gather (w : Waiting α) :
    Fallible.FailsOnly (Error.Plain [w.line]) (gather w) := by
  unfold gather
  split
  · exact Fallible.failsOnly_ok _
  · split
    · exact Fallible.failsOnly_ok _
    · exact Fallible.failsOnly_error (by simp [Error.Plain])

section Numbers
variable [Numeral α]

theorem failsOnly_number (line : Nat) (word : String) :
    Fallible.FailsOnly (Error.Plain [line]) (number line word : Except Error α) := by
  unfold number
  split
  · exact Fallible.failsOnly_ok _
  · exact Fallible.failsOnly_error (by simp [Error.Plain])

theorem failsOnly_numbers (line : Nat) (ws : List String) :
    Fallible.FailsOnly (Error.Plain [line]) (numbers line ws : Except Error (List α)) :=
  Fallible.failsOnly_mapM (failsOnly_number line) ws

theorem failsOnly_triple (line : Nat) (name : String) (args : List String) :
    Fallible.FailsOnly (Error.Plain [line]) (triple line name args : Except Error (Vec α)) := by
  unfold triple
  split
  · refine (failsOnly_number line _).bind fun x => ?_
    refine (failsOnly_number line _).bind fun y => ?_
    refine (failsOnly_number line _).bind fun z => ?_
    exact Fallible.failsOnly_ok _
  · exact Fallible.failsOnly_error (by simp [Error.Plain])

theorem failsOnly_turn (line : Nat) (name : String) (args : List String) :
    Fallible.FailsOnly (Error.Plain [line]) (turn line name args : Except Error (α × Vec α)) := by
  unfold turn
  split
  · refine (failsOnly_number line _).bind fun degrees => ?_
    refine (failsOnly_number line _).bind fun x => ?_
    refine (failsOnly_number line _).bind fun y => ?_
    refine (failsOnly_number line _).bind fun z => ?_
    exact Fallible.failsOnly_ok _
  · exact Fallible.failsOnly_error (by simp [Error.Plain])

theorem failsOnly_patchArguments (line : Nat) (args : List String) :
    Fallible.FailsOnly (Error.Plain [line])
      (patchArguments line args : Except Error (List α)) := by
  unfold patchArguments
  dsimp only
  split
  · exact failsOnly_numbers line _
  · exact Fallible.failsOnly_error (by simp [Error.Plain])

end Numbers

section Lines
variable [Scalar α] [Trig α] [SquareRoot α] [Finiteness α] [LT α] [DecidableLT α] [Numeral α]

theorem failsOnly_read (line : Nat) (name : String) (args : List String) :
    Fallible.FailsOnly (Error.Plain [line])
      (Directive.read line name args : Except Error (Directive α)) := by
  unfold Directive.read
  split
  · exact Fallible.failsOnly_ok _
  · exact Fallible.failsOnly_ok _
  · exact (failsOnly_triple line _ args).map _
  · exact (failsOnly_triple line _ args).map _
  · refine (failsOnly_turn line _ args).bind ?_
    rintro ⟨degrees, axis⟩
    dsimp only
    split
    · exact Fallible.failsOnly_ok _
    · exact Fallible.failsOnly_error (by simp [Error.Plain])
  · exact (failsOnly_patchArguments line args).map _
  · exact Fallible.failsOnly_ok _

theorem failsOnly_hear (w? : Option (Waiting α)) (line : Nat) (ws : List String) :
    Fallible.FailsOnly (Error.Plain (line :: w?.toList.map Waiting.line)) (hear w? line ws) := by
  unfold hear
  split
  · refine Fallible.FailsOnly.bind ?_ fun xs => ?_
    · exact (failsOnly_numbers line ws).mono fun e he => he.mono (by simp)
    · exact (failsOnly_gather _).mono fun e he => he.mono (by simp)
  · split
    · exact Fallible.failsOnly_ok _
    · split
      · exact Fallible.failsOnly_ok _
      · refine (failsOnly_read line _ _).bind fun d => ?_
        cases d with
        | patch values => exact failsOnly_gather _
        | begin => exact Fallible.failsOnly_ok _
        | finish => exact Fallible.failsOnly_ok _
        | move t => exact Fallible.failsOnly_ok _
        | other name => exact Fallible.failsOnly_ok _

end Lines

/-! ### History -/

/- A directive and the line that it begins on. -/
abbrev Entry (α : Type) := Nat × Directive α

def Heard.entry? : Heard α → Option (Entry α)
  | .entry line d => some (line, d)
  | _ => none

def Heard.waiting : Heard α → Option (Waiting α)
  | .part w => some w
  | _ => none

section Reading
variable [Scalar α] [Trig α] [SquareRoot α] [Finiteness α] [LT α] [DecidableLT α] [Numeral α]

/- The directives of the lines, in their order, up to a line that cannot be understood. -/
def history (w? : Option (Waiting α)) (line : Nat) : List String → List (Entry α)
  | [] => []
  | text :: rest =>
    match hear w? line (words text) with
    | .ok h => h.entry?.toList ++ history h.waiting (line + 1) rest
    | .error _ => []

/- What a file can say: a patch has all its values, and every other directive is read off one
line. -/
inductive Said : Entry α → Prop
  | patch (line : Nat) {values : List α} (h : values.toArray.size = 48) : Said (line, .patch values)
  | read {line : Nat} {d : Directive α} {name : String} {args : List String}
      (hread : Directive.read line name args = .ok d) (h : ∀ values, d ≠ .patch values) :
      Said (line, d)

theorem said_of_gather {w : Waiting α} {h : Heard α} (hgather : gather w = .ok h) :
    ∀ entry ∈ h.entry?, Said entry := by
  unfold gather at hgather
  split at hgather
  · rename_i hsize
    cases hgather
    rintro _ ⟨⟩
    exact .patch w.line hsize
  · split at hgather
    · cases hgather
      rintro _ ⟨⟩
    · cases hgather

theorem said_of_hear {w? : Option (Waiting α)} {line : Nat} {ws : List String} {h : Heard α}
    (hhear : hear w? line ws = .ok h) : ∀ entry ∈ h.entry?, Said entry := by
  unfold hear at hhear
  split at hhear
  · obtain ⟨xs, -, hgather⟩ := Fallible.bind_eq_ok_iff.1 hhear
    exact said_of_gather hgather
  · split at hhear
    · cases hhear
      rintro _ ⟨⟩
    · split at hhear
      · cases hhear
        rintro _ ⟨⟩
      · obtain ⟨d, hread, hheard⟩ := Fallible.bind_eq_ok_iff.1 hhear
        cases d with
        | patch values => exact said_of_gather hheard
        | begin => cases hheard; rintro _ ⟨⟩; exact .read hread (by simp)
        | finish => cases hheard; rintro _ ⟨⟩; exact .read hread (by simp)
        | move t => cases hheard; rintro _ ⟨⟩; exact .read hread (by simp)
        | other name => cases hheard; rintro _ ⟨⟩; exact .read hread (by simp)

theorem said_of_history {w? : Option (Waiting α)} {line : Nat} {texts : List String} :
    ∀ entry ∈ history w? line texts, Said entry := by
  induction texts generalizing w? line with
  | nil => simp [history]
  | cons text rest ih =>
    intro entry hentry
    unfold history at hentry
    split at hentry
    · rename_i h hhear
      rcases List.mem_append.1 hentry with hhere | hlater
      · exact said_of_hear hhear entry (Option.mem_toList.1 hhere)
      · exact ih entry hlater
    · cases hentry

end Reading

/-! ### Performing a history -/

namespace State

section Performing
variable [Scalar α]

/- What performing a directive comes to. -/
inductive Step (s : State α) (line : Nat) : Directive α → State α → Prop
  | begin : Step s line .begin { s with saved := s.current :: s.saved }
  | finish {t : Transform α} {rest : List (Transform α)} (h : s.saved = t :: rest) :
      Step s line .finish { s with current := t, saved := rest }
  | move (t : Transform α) : Step s line (.move t) { s with current := s.current * t }
  | patch {values : List α} (h : values.toArray.size = 48) :
      Step s line (.patch values)
        { s with
          waiting := none
          patches := s.patches.push (Patch.ofNet (net values.toArray h) s.current .bezier) }
  | other (name : String) :
      Step s line (.other name) { s with skipped := s.skipped.push (line, name) }

/- Nothing waits behind a directive that is complete. -/
theorem Step.waiting {s s' : State α} {line : Nat} {d : Directive α} (h : s.Step line d s')
    (hs : s.waiting = none) : s'.waiting = none := by
  cases h with
  | begin => exact hs
  | finish _ => exact hs
  | move t => exact hs
  | patch _ => rfl
  | other name => exact hs

/- Performs directives in their order, up to one that cannot be performed. -/
def run (s : State α) : List (Entry α) → State α × Option Error
  | [] => (s, none)
  | (line, d) :: rest =>
    match s.perform line d with
    | .ok next => next.run rest
    | .error e => (s, some e)

end Performing

section Reading
variable [Scalar α] [Trig α] [SquareRoot α] [Finiteness α] [LT α] [DecidableLT α] [Numeral α]

/- Of what a file can say, only an end without a begin cannot be performed. -/
theorem perform_cases (s : State α) {line : Nat} {d : Directive α} (h : Said (line, d)) :
    (∃ s', s.perform line d = .ok s' ∧ s.Step line d s') ∨
      d = .finish ∧ s.saved = [] ∧ s.perform line d = .error ⟨line, .unbalancedEnd⟩ := by
  cases d with
  | begin => exact .inl ⟨_, rfl, .begin⟩
  | finish =>
    cases hsaved : s.saved with
    | nil => exact .inr ⟨rfl, rfl, by simp only [perform, hsaved]⟩
    | cons t rest => exact .inl ⟨_, by simp only [perform, hsaved], .finish hsaved⟩
  | move t => exact .inl ⟨_, rfl, .move t⟩
  | patch values =>
    cases h with
    | patch _ hsize => exact .inl ⟨_, dif_pos hsize, .patch hsize⟩
    | read _ hne => exact absurd rfl (hne values)
  | other name => exact .inl ⟨_, rfl, .other name⟩

/- Reading lines is performing their history. The two differ in the patch that waits, and in the
error of a line that cannot be understood. -/
theorem takeLines_run (s : State α) (line : Nat) (texts : List String) :
    (s.takeLines line texts).1.idle = (s.idle.run (history s.waiting line texts)).1 ∧
      ∀ n, (s.takeLines line texts).2 = some ⟨n, .unbalancedEnd⟩ ↔
        (s.idle.run (history s.waiting line texts)).2 = some ⟨n, .unbalancedEnd⟩ := by
  induction texts generalizing s line with
  | nil => exact ⟨rfl, fun n => Iff.rfl⟩
  | cons text rest ih =>
    unfold takeLines history
    rw [takeWords_eq]
    cases hhear : hear s.waiting line (words text) with
    | error e =>
      have hplain : e.cause ≠ .unbalancedEnd := (failsOnly_hear _ _ _ e hhear).2.1
      refine ⟨rfl, fun n => ⟨fun herror => ?_, fun herror => ?_⟩⟩
      · cases herror
        exact absurd rfl hplain
      · cases herror
    | ok h =>
      cases h with
      | nothing => exact ih s.idle (line + 1)
      | part w => exact ih { s with waiting := some w } (line + 1)
      | entry n d =>
        have hsaid : Said (n, d) := said_of_hear hhear (n, d) rfl
        rcases perform_cases s.idle hsaid with ⟨s', hperform, hstep⟩ | ⟨-, -, hperform⟩
        · have hwaiting := hstep.waiting rfl
          have hrest := ih s' (line + 1)
          rw [hwaiting, idle_of_waiting hwaiting] at hrest
          simp only [bind, Except.bind, obey, Heard.entry?, Heard.waiting, Option.toList,
            List.singleton_append, run, hperform]
          exact hrest
        · simp [bind, Except.bind, obey, Heard.entry?, run, hperform]

/- What holds of the directives performed and the state, and outlasts every one of them, holds up
to the end, or up to an end without a begin. -/
theorem run_induction {P : List (Entry α) → State α → Prop} {past es : List (Entry α)}
    (hstep : ∀ done s line d s', P done s → Said (line, d) → s.Step line d s' →
      P (done ++ [(line, d)]) s')
    (hsaid : ∀ entry ∈ es, Said entry) {s : State α} (hs : P past s) :
    (s.run es).2 = none ∧ P (past ++ es) (s.run es).1 ∨
      ∃ done line rest, es = done ++ (line, .finish) :: rest ∧ P (past ++ done) (s.run es).1 ∧
        (s.run es).1.saved = [] ∧ (s.run es).2 = some ⟨line, .unbalancedEnd⟩ := by
  induction es generalizing past s with
  | nil => exact .inl ⟨rfl, by rwa [List.append_nil]⟩
  | cons entry rest ih =>
    obtain ⟨line, d⟩ := entry
    have hd : Said (line, d) := hsaid _ List.mem_cons_self
    rcases perform_cases s hd with ⟨s', hperform, hs'⟩ | ⟨rfl, hsaved, hperform⟩
    · have hrest := ih (fun entry hmem => hsaid entry (List.mem_cons_of_mem _ hmem))
        (hstep past s line d s' hs hd hs')
      rw [run, hperform]
      rcases hrest with ⟨hnone, hP⟩ | ⟨done, n, later, rfl, hP, hrest⟩
      · rw [List.append_assoc] at hP
        exact .inl ⟨hnone, hP⟩
      · rw [List.append_assoc] at hP
        exact .inr ⟨(line, d) :: done, n, later, rfl, hP, hrest⟩
    · rw [run, hperform]
      exact .inr ⟨[], line, rest, rfl, by rwa [List.append_nil], hsaved, rfl⟩

end Reading

end State

/-! ### Files -/

section Files
variable [Scalar α] [Trig α] [SquareRoot α] [Finiteness α] [LT α] [DecidableLT α] [Numeral α]

theorem state_readLines (texts : List String) :
    (readLines texts : Reading α).state = (State.initial.takeLines 1 texts).1 := by
  unfold readLines
  obtain ⟨s, error?⟩ := (State.initial : State α).takeLines 1 texts
  cases error? with
  | none => rfl
  | some e => rfl

/- Of the two kinds of error, at a line and at the end of the file, this is one at a line. -/
theorem unbalanced_readLines (texts : List String) (n : Nat) :
    (readLines texts : Reading α).error? = some ⟨n, .unbalancedEnd⟩ ↔
      ((State.initial : State α).takeLines 1 texts).2 = some ⟨n, .unbalancedEnd⟩ := by
  unfold readLines
  obtain ⟨s, error?⟩ := (State.initial : State α).takeLines 1 texts
  cases error? with
  | none => simp [State.endError?]
  | some e => exact Iff.rfl

/- Reading performs the whole history, or it stops at an end that has no begin. -/
theorem readLines_induction {P : List (Entry α) → State α → Prop} (hinitial : P [] .initial)
    (hstep : ∀ done s line d s', P done s → Said (line, d) → s.Step line d s' →
      P (done ++ [(line, d)]) s') (texts : List String) :
    (∀ n, (readLines texts : Reading α).error? ≠ some ⟨n, .unbalancedEnd⟩) ∧
        P (history none 1 texts) (readLines texts : Reading α).state.idle ∨
      ∃ done line rest, history none 1 texts = done ++ (line, .finish) :: rest ∧
        P done (readLines texts : Reading α).state.idle ∧
        (readLines texts : Reading α).state.saved = [] ∧
        (readLines texts : Reading α).error? = some ⟨line, .unbalancedEnd⟩ := by
  obtain ⟨hstate, herror⟩ := State.takeLines_run (State.initial : State α) 1 texts
  have hsaid : ∀ entry ∈ (history none 1 texts : List (Entry α)), Said entry := said_of_history
  have hrun := State.run_induction hstep hsaid hinitial
  have hidle : (readLines texts : Reading α).state.idle =
      (State.initial.run (history none 1 texts)).1 := by
    rw [state_readLines]
    exact hstate
  rw [← hidle] at hrun
  rcases hrun with ⟨hnone, hP⟩ | ⟨done, line, rest, hsplit, hP, hsaved, hsome⟩
  · refine .inl ⟨fun n hn => ?_, hP⟩
    have hunbalanced := (herror n).1 ((unbalanced_readLines texts n).1 hn)
    have himpossible := hnone.symm.trans hunbalanced
    cases himpossible
  · refine .inr ⟨done, line, rest, hsplit, hP, hsaved, ?_⟩
    exact (unbalanced_readLines texts line).2 ((herror line).2 hsome)

end Files

end ProceduralShapes.Rib
