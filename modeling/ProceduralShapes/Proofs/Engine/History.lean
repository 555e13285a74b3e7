import ProceduralShapes.Engine.Call
import ProceduralShapes.Proofs.Engine.Buffers

/-!
# What an engine remembers

An engine is what the last calls of three kinds have made it: the last call that set welding, the
last document that loaded and the last patch file that was read. Whatever was refused or only asked
in between has left no trace. So what an engine answers from memory is what it would answer if the
text were given to it again.
-/

namespace ProceduralShapes.Engine

open Decimal (Numeral)
open Fallible

variable {α β : Type}

/-! ### What a call leaves behind -/

namespace Call

def weld? : Call → Option Bool
  | .setWeld weld => some weld
  | _ => none

/- Calls that only ask. -/
def isQuery : Call → Bool
  | .setWeld _ | .loadGrammar _ | .loadPatches _ _ _ => false
  | _ => true

section Texts
variable [Scalar α] [Trig α] [Numeral α]

/- The document that a call loads, itself or by the name of a built-in one, and its grammar. -/
def loaded? : Call → Option (String × Grammar α)
  | .loadGrammar text =>
    let document := (Grammar.Library.find? (Text.trimmed text)).getD text
    match Grammar.ofText document with
    | .ok g => some (document, g)
    | .error _ => none
  | _ => none

theorem ofText_of_loaded? {c : Call} {document : String} {g : Grammar α}
    (h : c.loaded? = some (document, g)) : Grammar.ofText document = .ok g := by
  cases c with
  | loadGrammar text =>
    simp only [loaded?] at h
    split at h
    · rename_i hloaded
      cases h
      exact hloaded
    · cases h
  | _ => cases h

variable [SquareRoot α] [Finiteness α] [LT α] [DecidableLT α]

/- The patch file that a call reads, and its patches. -/
def parsed? : Call → Option (String × Array (Patch α))
  | .loadPatches text _ _ =>
    match (Rib.read text : Rib.Reading α).patches with
    | .ok patches => some (text, patches)
    | .error _ => none
  | _ => none

theorem patches_of_parsed? {c : Call} {text : String} {patches : Array (Patch α)}
    (h : c.parsed? = some (text, patches)) :
    (Rib.read text : Rib.Reading α).patches = .ok patches := by
  cases c with
  | loadPatches text' u v =>
    simp only [parsed?] at h
    split at h
    · rename_i hread
      cases h
      exact hread
    · cases h
  | _ => cases h

/- A call whose file is read, with patches that have more vertices than there are numbers of 32
bits. -/
def Outgrows (α : Type) [Scalar α] [Trig α] [Numeral α] [SquareRoot α] [Finiteness α] [LT α]
    [DecidableLT α] (c : Call) : Prop :=
  ∃ text u v patches, c = .loadPatches text u v ∧
    (Rib.read text : Rib.Reading α).patches = .ok patches ∧
    UInt32.size < patches.size * Mesh.unitGridSize u v

end Texts

end Call

/- What the last of the calls that leave something behind has left. -/
def last (left? : Call → Option β) (calls : List Call) : Option β :=
  calls.reverse.findSome? left?

theorem last_cons (left? : Call → Option β) (c : Call) (calls : List Call) :
    last left? (c :: calls) = (last left? calls).or (left? c) := by
  have hone : List.findSome? left? [c] = left? c := by
    cases hc : left? c with
    | none => simp [hc]
    | some b => simp [hc]
  rw [last, List.reverse_cons, List.findSome?_append, hone, last]

theorem exists_call_of_last {left? : Call → Option β} {calls : List Call} {b : β}
    (h : last left? calls = some b) : ∃ c, left? c = some b := by
  obtain ⟨c, -, hc⟩ := List.exists_of_findSome?_eq_some h
  exact ⟨c, hc⟩

/-! ### Handing out a mesh -/

section Meshes
variable [Scalar α] [LE α] [DecidableLE α] [LT α] [DecidableLT α] [Finiteness α] [CellIndex α]

/- Nothing goes wrong with handing out a mesh but that there is no room for it. -/
theorem failsOnly_handOut (e : Engine α) (m : Except Fault (Mesh α)) :
    FailsOnly (fun err => ∃ f, err = .fault f) (e.handOut m).result := by
  cases m with
  | error f => exact failsOnly_error ⟨f, rfl⟩
  | ok m =>
    simp only [handOut]
    cases (e.finish m).1 with
    | error f => exact failsOnly_error ⟨f, rfl⟩
    | ok out => exact failsOnly_ok _

/- Engines that agree on welding hand a mesh out alike. -/
theorem handOut_congr {e other : Engine α} (h : other.weld = e.weld) (m : Except Fault (Mesh α)) :
    other.handOut m = e.handOut m := by
  cases m with
  | error f => rfl
  | ok m => simp only [handOut, finish, h]

end Meshes

section Calls
variable [Scalar α] [Trig α] [SquareRoot α] [Finiteness α] [LE α] [DecidableLE α]
  [LT α] [DecidableLT α] [CellIndex α] [Numeral α]

/-! ### A single call -/

def answer (e : Engine α) (c : Call) : Except Error (Answer α) := (e.respond c).2.result

theorem respond_state (e : Engine α) (c : Call) :
    (e.respond c).1 = ⟨(c.loaded?.map Prod.snd).or e.grammar?,
      (c.parsed?.map Prod.snd).getD e.patches, c.weld?.getD e.weld⟩ := by
  cases c with
  | loadGrammar text =>
    simp only [respond, loadGrammar, Call.loaded?]
    cases (Grammar.ofText ((Grammar.Library.find? (Text.trimmed text)).getD text) :
      Except Grammar.LoadError (Grammar α)) with
    | ok g => rfl
    | error err => rfl
  | loadPatches text u v =>
    simp only [respond, loadPatches, Call.parsed?]
    cases (Rib.read text : Rib.Reading α).patches with
    | ok patches => rfl
    | error err => rfl
  | _ => rfl

/- Loading a document succeeds just when there is a grammar to keep. -/
theorem answer_loadGrammar_eq_ok_iff (e : Engine α) (text : String) :
    e.answer (.loadGrammar text) = .ok .done ↔
      ∃ kept : String × Grammar α, (Call.loadGrammar text).loaded? = some kept := by
  simp only [answer, respond, loadGrammar, Call.loaded?]
  cases (Grammar.ofText ((Grammar.Library.find? (Text.trimmed text)).getD text) :
    Except Grammar.LoadError (Grammar α)) with
  | ok g => exact iff_of_true rfl ⟨_, rfl⟩
  | error err =>
    constructor
    · intro hanswer
      cases hanswer
    · intro hkept
      obtain ⟨kept, hkept⟩ := hkept
      cases hkept

theorem respond_of_query (e : Engine α) {c : Call} (h : c.isQuery = true) :
    (e.respond c).1 = e := by
  cases c with
  | setWeld | loadGrammar | loadPatches => cases h
  | _ => rfl

/- A call that fails changes nothing. Only when there is no room for the mesh of a file, which is
not a failure but a fault, are its patches kept already. -/
theorem respond_of_error (e : Engine α) {c : Call} {err : Error} (h : e.answer c = .error err) :
    (e.respond c).1 = e ∨ c.Outgrows α ∧ ∃ f, err = .fault f := by
  cases c with
  | loadGrammar text =>
    refine .inl ?_
    simp only [answer, respond, loadGrammar] at h ⊢
    split at h
    · cases h
    · rfl
  | loadPatches text u v =>
    cases hread : (Rib.read text : Rib.Reading α).patches with
    | error refused =>
      refine .inl ?_
      simp only [respond, loadPatches, hread]
    | ok patches =>
      simp only [answer, respond, loadPatches, hread, Reply.map, Reply.after] at h
      have hfault := (failsOnly_handOut _ _).map Answer.buffers err h
      refine .inr ⟨⟨text, u, v, patches, rfl, hread, Nat.not_le.1 fun hsize => ?_⟩, hfault⟩
      -- A mesh that can be numbered is handed out, welded or not.
      obtain ⟨m, -, -, b, out, hresult, -⟩ := meshPatches_handsOut { e with patches } u v hsize
      rw [hresult] at h
      cases h
  | setWeld weld => cases h
  | _ => exact .inl rfl

/- What is evaluated from memory is what the document would give, whichever engine is asked. -/
theorem answer_evaluateText {e : Engine α} {document : String} {g : Grammar α}
    (hkept : e.grammar? = some g) (hloads : Grammar.ofText document = .ok g) (seed : UInt32)
    (other : Engine α) :
    other.answer (.evaluateText document seed) = e.answer (.evaluateLoaded seed) := by
  simp only [answer, respond, evaluateText, evaluateLoaded, hloads, hkept]
  rfl

/- The mesh of the patches in memory is what the file would give, whichever engine is asked that
agrees on welding. -/
theorem answer_loadPatches {e : Engine α} {text : String}
    (hread : (Rib.read text : Rib.Reading α).patches = .ok e.patches) (u v : Nat)
    {other : Engine α} (hweld : other.weld = e.weld) :
    other.answer (.loadPatches text u v) = e.answer (.meshPatches u v) := by
  have hmesh : meshPatches { other with patches := e.patches } u v = e.meshPatches u v :=
    handOut_congr hweld _
  simp only [answer, respond, loadPatches, hread, hmesh]
  rfl

/-! ### Many calls -/

theorem after_eq (e : Engine α) (calls : List Call) :
    e.after calls = ⟨((last Call.loaded? calls).map Prod.snd).or e.grammar?,
      ((last Call.parsed? calls).map Prod.snd).getD e.patches,
      (last Call.weld? calls).getD e.weld⟩ := by
  induction calls generalizing e with
  | nil => rfl
  | cons c calls ih =>
    have hstep : e.after (c :: calls) = (e.respond c).1.after calls := rfl
    rw [hstep, ih, respond_state]
    simp only [last_cons, Option.map_or, Option.or_assoc, Option.getD_or]

/- After any calls, a new engine is what the last three of them that left something have made it.
Failing calls and queries change nothing, and what is answered from memory is what would be answered
to the last document that loaded, or to the last patch file that was read. -/
theorem history_determines (calls : List Call) :
    let e : Engine α := Engine.after {} calls
    e = ⟨(last Call.loaded? calls).map Prod.snd, ((last Call.parsed? calls).map Prod.snd).getD #[],
      (last Call.weld? calls).getD false⟩ ∧
    (∀ text, e.answer (.loadGrammar text) = .ok .done ↔
      ∃ kept : String × Grammar α, (Call.loadGrammar text).loaded? = some kept) ∧
    (∀ c : Call, c.isQuery = true → (e.respond c).1 = e) ∧
    (∀ c err, e.answer c = .error err →
      (e.respond c).1 = e ∨ c.Outgrows α ∧ ∃ f, err = .fault f) ∧
    (∀ document (g : Grammar α), last Call.loaded? calls = some (document, g) →
      ∀ (other : Engine α) seed,
        other.answer (.evaluateText document seed) = e.answer (.evaluateLoaded seed)) ∧
    ∀ text (patches : Array (Patch α)), last Call.parsed? calls = some (text, patches) →
      ∀ (other : Engine α) u v, other.weld = e.weld →
        other.answer (.loadPatches text u v) = e.answer (.meshPatches u v) := by
  intro e
  have hstate : e = ⟨(last Call.loaded? calls).map Prod.snd,
      ((last Call.parsed? calls).map Prod.snd).getD #[], (last Call.weld? calls).getD false⟩ := by
    have h := after_eq ({} : Engine α) calls
    rwa [Option.or_none] at h
  refine ⟨hstate, e.answer_loadGrammar_eq_ok_iff, fun c => e.respond_of_query,
    fun c err => e.respond_of_error, ?_, ?_⟩
  · intro document g hlast other seed
    obtain ⟨c, hc⟩ := exists_call_of_last hlast
    have hkept : e.grammar? = some g := by rw [hstate, hlast, Option.map_some]
    exact answer_evaluateText hkept (Call.ofText_of_loaded? hc) seed other
  · intro text patches hlast other u v hweld
    obtain ⟨c, hc⟩ := exists_call_of_last hlast
    have hkept : e.patches = patches := by rw [hstate, hlast, Option.map_some, Option.getD_some]
    exact answer_loadPatches (hkept ▸ Call.patches_of_parsed? hc) u v hweld

end Calls

def boxDocument : String :=
  "<rules max_depth=\"2\"><rule name=\"entry\"><instance shape=\"box\"/></rule></rules>"

/- A document and a patch file, and after them calls that are refused. -/
def refusedCalls : List Call :=
  [.loadGrammar boxDocument, .loadPatches squareFile 2 3, .setWeld true, .loadGrammar "<rules>",
    .loadPatches "TransformEnd" 1 1, .tessellate "cube" 3 3 .closed]

theorem loaded_refusedCalls : ∃ g : Grammar Float,
    last Call.loaded? refusedCalls = some (boxDocument, g) := by
  have hname : (last Call.loaded? refusedCalls : Option (String × Grammar Float)).map Prod.fst =
      some boxDocument := by decide +kernel
  obtain ⟨⟨document, g⟩, hlast, hdocument⟩ := Option.map_eq_some_iff.1 hname
  cases hdocument
  exact ⟨g, hlast⟩

theorem parsed_refusedCalls : ∃ patches : Array (Patch Float),
    last Call.parsed? refusedCalls = some (squareFile, patches) := by
  have hname : (last Call.parsed? refusedCalls : Option (String × Array (Patch Float))).map
      Prod.fst = some squareFile := by decide +kernel
  obtain ⟨⟨text, patches⟩, hlast, htext⟩ := Option.map_eq_some_iff.1 hname
  cases htext
  exact ⟨patches, hlast⟩

/- The engine after these calls answers from the document and the file that came first. -/
theorem refusedCalls_remembered :
    let e : Engine Float := Engine.after {} refusedCalls
    ∃ (g : Grammar Float) (patches : Array (Patch Float)),
      last Call.loaded? refusedCalls = some (boxDocument, g) ∧
      last Call.parsed? refusedCalls = some (squareFile, patches) ∧
      e = ⟨some g, patches, true⟩ ∧
      (e.respond .patchCount).1 = e ∧
      e.answer (.tessellate "cube" 3 3 .closed) = .error (.unknownSurface "cube") ∧
      (e.respond (.tessellate "cube" 3 3 .closed)).1 = e ∧
      Engine.answer {} (.evaluateText boxDocument 7) = e.answer (.evaluateLoaded 7) ∧
      Engine.answer (setWeld {} true) (.loadPatches squareFile 4 4) =
        e.answer (.meshPatches 4 4) := by
  obtain ⟨g, hg⟩ := loaded_refusedCalls
  obtain ⟨patches, hpatches⟩ := parsed_refusedCalls
  obtain ⟨hstate, -, hquery, herror, hdocument, hfile⟩ :=
    history_determines (α := Float) refusedCalls
  rw [hg, hpatches] at hstate
  have hcube : Surface.named? "cube" = none := by decide +kernel
  have hunknown : ∀ e : Engine Float,
      e.answer (.tessellate "cube" 3 3 .closed) = .error (.unknownSurface "cube") := by
    intro e
    simp only [answer, respond, tessellate, hcube]
    rfl
  have hcubeState := (herror _ _ (hunknown _)).resolve_right fun hlarge => by
    obtain ⟨-, f, hfault⟩ := hlarge
    cases hfault
  have hweld : (setWeld {} true : Engine Float).weld =
      (Engine.after {} refusedCalls : Engine Float).weld := by rw [hstate]; rfl
  exact ⟨g, patches, hg, hpatches, hstate, hquery .patchCount rfl, hunknown _,
    hcubeState, hdocument _ g hg {} 7, hfile _ patches hpatches _ 4 4 hweld⟩

end ProceduralShapes.Engine
