import ProceduralShapes.Proofs.Rib.Block
import ProceduralShapes.Proofs.Rib.Concatenation

/-!
# The scope of a transform

A reader keeps the current transform and those that open blocks saved. Behind any directives the
current transform is the product of the moves that stand, the saved ones are those at the begins
still open (`Tracks`), so a patch is placed by the moves that no closed block holds. The first end
with more ends than begins up to it is refused. A block as a whole leaves the transform as it was.
-/

namespace ProceduralShapes.Rib

open Decimal (Numeral)

variable {α : Type}

def Directive.isPatch : Directive α → Bool
  | .patch _ => true
  | _ => false

def directives (es : List (Entry α)) : List (Directive α) := es.map Prod.snd

/- The number of patches among the directives. -/
def patchCount (es : List (Entry α)) : Nat := (directives es).countP Directive.isPatch

@[simp] theorem directives_append (es es' : List (Entry α)) :
    directives (es ++ es') = directives es ++ directives es' := List.map_append

theorem directives_concat (es : List (Entry α)) (line : Nat) (d : Directive α) :
    directives (es ++ [(line, d)]) = directives es ++ [d] := directives_append es _

theorem patchCount_concat (es : List (Entry α)) (line : Nat) (d : Directive α) :
    patchCount (es ++ [(line, d)]) = patchCount es + if d.isPatch then 1 else 0 := by
  unfold patchCount
  rw [directives_concat, List.countP_append, List.countP_singleton]

/-! ### The invariant -/

section Invariant
variable [Scalar α]

/- The patches of the directives, in their order, each under the moves that stand before it. -/
structure Patches (es : List (Entry α)) (ps : Array (Patch α)) : Prop where
  size : ps.size = patchCount es
  placed : ∀ k line values, es[k]? = some (line, .patch values) →
    ∃ (h : values.toArray.size = 48) (t : Transform α), Placed (directives (es.take k)) t ∧
      ps[patchCount (es.take k)]? = some (Patch.ofNet (net values.toArray h) t .bezier)

/- What comes behind does not change the patches before it. -/
theorem Patches.placed_append {es : List (Entry α)} {ps : Array (Patch α)} (h : Patches es ps)
    (more : List (Entry α)) {k : Nat} (hk : k < es.length) {line : Nat} {values : List α}
    (hget : (es ++ more)[k]? = some (line, .patch values)) :
    ∃ (h : values.toArray.size = 48) (t : Transform α),
      Placed (directives ((es ++ more).take k)) t ∧
      ps[patchCount ((es ++ more).take k)]? =
        some (Patch.ofNet (net values.toArray h) t .bezier) := by
  rw [List.getElem?_append_left hk] at hget
  rw [List.take_append_of_le_length (by omega)]
  exact h.placed k line values hget

theorem patches_nil : Patches ([] : List (Entry α)) #[] := by
  refine ⟨rfl, ?_⟩
  intro k line values h
  cases h

theorem Patches.append_other {es : List (Entry α)} {ps : Array (Patch α)} (h : Patches es ps)
    (line : Nat) {d : Directive α} (hd : d.isPatch = false) : Patches (es ++ [(line, d)]) ps := by
  refine ⟨?_, ?_⟩
  · rw [h.size, patchCount_concat, hd]
    rfl
  · intro k n values hget
    rcases getElem?_concat_eq_some hget with hbefore | ⟨-, heq⟩
    · exact h.placed_append _ (List.getElem?_eq_some_iff.1 hbefore).1 hget
    · cases heq
      cases hd

theorem Patches.append_patch {es : List (Entry α)} {ps : Array (Patch α)} (h : Patches es ps)
    (line : Nat) {values : List α} (hsize : values.toArray.size = 48) {t : Transform α}
    (ht : Placed (directives es) t) : Patches (es ++ [(line, .patch values)])
      (ps.push (Patch.ofNet (net values.toArray hsize) t .bezier)) := by
  refine ⟨?_, ?_⟩
  · rw [Array.size_push, h.size, patchCount_concat]
    rfl
  · intro k n values' hget
    rcases getElem?_concat_eq_some hget with hbefore | ⟨rfl, heq⟩
    · obtain ⟨hsize', u, hu, hpatch⟩ :=
        h.placed_append _ (List.getElem?_eq_some_iff.1 hbefore).1 hget
      refine ⟨hsize', u, hu, ?_⟩
      have hlt := (Array.getElem?_eq_some_iff.1 hpatch).1
      rw [Array.getElem?_push_lt hlt, ← Array.getElem?_eq_getElem hlt]
      exact hpatch
    · cases heq
      rw [List.take_left]
      refine ⟨hsize, t, ht, ?_⟩
      rw [← h.size]
      exact Array.getElem?_push_size

/- How the state follows from the directives performed. -/
structure Tracks (es : List (Entry α)) (s : State α) : Prop where
  current : Placed (directives es) s.current
  saved : Open (directives es) s.saved
  patches : Patches es s.patches

theorem tracks_initial : Tracks [] (State.initial : State α) :=
  ⟨placed_nil, .nil balanced_nil, patches_nil⟩

theorem Tracks.step {es : List (Entry α)} {s s' : State α} {line : Nat} {d : Directive α}
    (h : Tracks es s) (hstep : s.Step line d s') : Tracks (es ++ [(line, d)]) s' := by
  cases hstep with
  | begin =>
    refine ⟨?_, ?_, h.patches.append_other line rfl⟩
    · rw [directives_concat]
      exact h.current.append_singleton (by simp) (by simp)
    · rw [directives_concat]
      exact .cons h.current h.saved balanced_nil
  | @finish t rest hsaved =>
    have hopen := h.saved
    rw [hsaved] at hopen
    obtain ⟨hcurrent, hrest⟩ := hopen.append_finish
    refine ⟨?_, ?_, h.patches.append_other line rfl⟩
    · rw [directives_concat]
      exact hcurrent
    · rw [directives_concat]
      exact hrest
  | move t =>
    refine ⟨?_, ?_, h.patches.append_other line rfl⟩
    · rw [directives_concat]
      exact h.current.append_move t
    · rw [directives_concat]
      exact h.saved.append (balanced_singleton rfl rfl)
  | @patch values hsize =>
    refine ⟨?_, ?_, h.patches.append_patch line hsize h.current⟩
    · rw [directives_concat]
      exact h.current.append_singleton (by simp) (by simp)
    · rw [directives_concat]
      exact h.saved.append (balanced_singleton rfl rfl)
  | other name =>
    refine ⟨?_, ?_, h.patches.append_other line rfl⟩
    · rw [directives_concat]
      exact h.current.append_singleton (by simp) (by simp)
    · rw [directives_concat]
      exact h.saved.append (balanced_singleton rfl rfl)

theorem Tracks.covered {es : List (Entry α)} {s : State α} (h : Tracks es s) :
    Covered (directives es) := h.saved.counts.1

/- With no block open, one more end is one too many. -/
theorem Tracks.lt_of_saved {es : List (Entry α)} {s : State α} (h : Tracks es s)
    (hsaved : s.saved = []) :
    begins (directives es ++ [.finish]) < ends (directives es ++ [.finish]) := by
  have hcount := h.saved.counts.2
  rw [hsaved, List.length_nil] at hcount
  simp only [begins_append, ends_append, begins_cons, ends_cons, begins_nil, ends_nil,
    Directive.isBegin, Directive.isFinish]
  simp
  omega

/- An end with more ends than begins up to it, and none like it before, is where reading stops. -/
theorem covered_take_iff {done rest : List (Entry α)} {line : Nat} {s : State α}
    (h : Tracks done s) (hsaved : s.saved = []) {k : Nat} :
    Covered (directives ((done ++ (line, .finish) :: rest).take k)) ↔ k ≤ done.length := by
  constructor
  · intro hcovered
    refine Nat.le_of_not_lt fun hlt => ?_
    obtain ⟨j, rfl⟩ : ∃ j, k = done.length + (j + 1) := ⟨k - done.length - 1, by omega⟩
    rw [List.take_length_add_append, List.take_succ_cons, directives_append] at hcovered
    have hsplit : directives ((line, .finish) :: rest.take j) =
        [Directive.finish] ++ directives (rest.take j) := rfl
    rw [hsplit, ← List.append_assoc] at hcovered
    have hlast := hcovered.of_append.ends_le
    have hmore := h.lt_of_saved hsaved
    omega
  · intro hle
    rw [List.take_append_of_le_length hle]
    have hcovered := h.covered
    rw [← List.take_append_drop k done, directives_append] at hcovered
    exact hcovered.of_append

end Invariant

/-! ### Files -/

section Files
variable [Scalar α] [Trig α] [SquareRoot α] [Finiteness α] [LT α] [DecidableLT α] [Numeral α]

theorem tracks_readLines (texts : List String) :
    (∀ n, (readLines texts : Reading α).error? ≠ some ⟨n, .unbalancedEnd⟩) ∧
        Tracks (history none 1 texts) (readLines texts : Reading α).state.idle ∨
      ∃ done line rest, history none 1 texts = done ++ (line, .finish) :: rest ∧
        Tracks done (readLines texts : Reading α).state.idle ∧
        (readLines texts : Reading α).state.saved = [] ∧
        (readLines texts : Reading α).error? = some ⟨line, .unbalancedEnd⟩ :=
  readLines_induction tracks_initial (fun _ _ _ _ _ h _ hstep => h.step hstep) texts

theorem placed_of_covered (texts : List String) {k line : Nat} {values : List α}
    (hget : (history none 1 texts)[k]? = some (line, .patch values))
    (hcovered : Covered (directives ((history none 1 texts : List (Entry α)).take k))) :
    ∃ (h : values.toArray.size = 48) (t : Transform α),
      Placed (directives ((history none 1 texts).take k)) t ∧
      (readLines texts : Reading α).state.patches[
        patchCount ((history none 1 texts : List (Entry α)).take k)]? =
          some (Patch.ofNet (net values.toArray h) t .bezier) := by
  rcases tracks_readLines (α := α) texts with
    ⟨-, htracks⟩ | ⟨done, n, rest, hsplit, htracks, hsaved, -⟩
  · exact htracks.patches.placed k line values hget
  · rw [hsplit] at hget hcovered ⊢
    have hle := (covered_take_iff htracks hsaved).1 hcovered
    refine htracks.patches.placed_append _ (Nat.lt_of_le_of_ne hle ?_) hget
    -- At the end of what was performed stands no patch.
    rintro rfl
    rw [List.getElem?_append_right (Nat.le_refl _), Nat.sub_self] at hget
    cases hget

theorem covered_of_patches_ok {texts : List String} {ps : Array (Patch α)}
    (h : (readLines texts : Reading α).patches = .ok ps) :
    Covered (directives (history none 1 texts : List (Entry α))) ∧
      ps.size = patchCount (history none 1 texts : List (Entry α)) := by
  obtain ⟨hread, rfl⟩ := error?_of_patches_ok h
  rcases tracks_readLines (α := α) texts with ⟨-, htracks⟩ | ⟨done, n, rest, -, -, -, herror⟩
  · exact ⟨htracks.covered, htracks.patches.size⟩
  · rw [hread] at herror
    cases herror

theorem unbalanced_iff (texts : List String) (n : Nat) :
    (readLines texts : Reading α).error? = some ⟨n, .unbalancedEnd⟩ ↔
      ∃ k, (history none 1 texts : List (Entry α))[k]? = some (n, .finish) ∧
        Covered (directives ((history none 1 texts : List (Entry α)).take k)) ∧
        begins (directives ((history none 1 texts : List (Entry α)).take (k + 1))) <
          ends (directives ((history none 1 texts : List (Entry α)).take (k + 1))) := by
  rcases tracks_readLines (α := α) texts with
    ⟨hnone, htracks⟩ | ⟨done, line, rest, hsplit, htracks, hsaved, herror⟩
  · refine ⟨fun h => absurd h (hnone n), ?_⟩
    rintro ⟨k, -, -, hmore⟩
    have hle := htracks.covered (k + 1)
    rw [directives, ← List.map_take] at hle
    exact absurd hmore (Nat.not_lt_of_le hle)
  · rw [hsplit, herror]
    constructor
    · rintro ⟨⟩
      refine ⟨done.length, ?_, (covered_take_iff htracks hsaved).2 (Nat.le_refl _), ?_⟩
      · rw [List.getElem?_append_right (Nat.le_refl _), Nat.sub_self]
        rfl
      · rw [List.take_length_add_append, directives_append]
        exact htracks.lt_of_saved hsaved
    · rintro ⟨k, hget, hcovered, hmore⟩
      have hle := (covered_take_iff htracks hsaved).1 hcovered
      have hlast : k = done.length := by
        refine Nat.le_antisymm hle (Nat.le_of_not_lt fun hlt => ?_)
        have hbefore : Covered (directives ((done ++ (line, .finish) :: rest).take (k + 1))) :=
          (covered_take_iff htracks hsaved).2 hlt
        exact absurd hmore (Nat.not_lt_of_le hbefore.ends_le)
      subst hlast
      rw [List.getElem?_append_right (Nat.le_refl _), Nat.sub_self] at hget
      cases hget
      rfl

/-! ### Blocks as a whole -/

theorem takeWords_begin {s : State α} (h : s.waiting = none) (line : Nat) :
    s.takeWords line (words "TransformBegin") = .ok { s with saved := s.current :: s.saved } := by
  have hwords : words "TransformBegin" = ["TransformBegin"] := by decide
  rw [hwords]
  obtain ⟨current, saved, waiting, patches, skipped⟩ := s
  cases h
  rfl

theorem takeWords_finish {s : State α} (h : s.waiting = none) {t : Transform α}
    {rest : List (Transform α)} (hsaved : s.saved = t :: rest) (line : Nat) :
    s.takeWords line (words "TransformEnd") = .ok { s with current := t, saved := rest } := by
  have hwords : words "TransformEnd" = ["TransformEnd"] := by decide
  rw [hwords]
  obtain ⟨current, saved, waiting, patches, skipped⟩ := s
  cases h
  cases hsaved
  rfl

/- What follows a block is read as if there were no block, but for its lines and its patches. -/
theorem readLines_block {a : List String} {s : State α} (h : readLines a = ⟨s, none⟩)
    (hsaved : s.saved = []) (b : List String) : ∃ skipped,
    readLines ("TransformBegin" :: (a ++ "TransformEnd" :: b)) = (readLines b : Reading α).behind
      { lines := a.length + 2, patches := s.patches, skipped } := by
  rw [readLines_eq_reading] at h
  obtain ⟨htake, hwaiting⟩ := State.takeLines_of_reading h
  let opened : Past α := { lines := 1, saved := [.identity] }
  have hbegin : (State.initial : State α).takeLines 1 ["TransformBegin"] =
      (State.initial.behind opened, none) := by
    rw [State.takeLines, takeWords_begin rfl]
    simp [State.behind, opened, State.takeLines, State.initial]
  have hinside : ((State.initial : State α).behind opened).takeLines 2 a =
      (s.behind opened, none) := by
    have hbehind := State.takeLines_behind opened State.initial 1 a (.inr (by simp [htake]))
    rwa [htake] at hbehind
  let closed : Past α :=
    { lines := a.length + 2, patches := s.patches, skipped := (s.behind opened).skipped }
  have hfinish : (s.behind opened).takeLines (2 + a.length) ["TransformEnd"] =
      (State.initial.behind closed, none) := by
    have hwaits : (s.behind opened).waiting = none := by simp [State.behind, hwaiting]
    have hopen : (s.behind opened).saved = [.identity] := by simp [State.behind, hsaved, opened]
    rw [State.takeLines, takeWords_finish hwaits hopen]
    simp [State.behind, hwaiting, opened, closed, State.takeLines, State.initial]
  have hline : 2 + a.length + 1 = 1 + closed.lines := by
    simp only [closed]
    omega
  refine ⟨(s.behind opened).skipped, ?_⟩
  rw [readLines_eq_reading, readLines_eq_reading, ← State.reading_behind closed _ _ _ rfl, ← hline]
  exact (State.reading_append hbegin _).trans
    ((State.reading_append hinside _).trans (State.reading_append hfinish b))

/- A patch is placed by the moves that no closed block holds, an end is refused where the ends
first outnumber the begins, and a block changes nothing behind it. -/
theorem transforms_scoped :
    (∀ texts,
      let es : List (Entry α) := history none 1 texts
      let r : Reading α := readLines texts
      (∀ k line values, es[k]? = some (line, .patch values) → Covered (directives (es.take k)) →
        ∃ (h : values.toArray.size = 48) (ts : List (Transform α)),
          Standing (directives (es.take k)) ts ∧ r.state.patches[patchCount (es.take k)]? =
            some (Patch.ofNet (net values.toArray h) (ts.foldl (· * ·) .identity) .bezier)) ∧
      (∀ ps, r.patches = .ok ps → Covered (directives es) ∧ ps.size = patchCount es) ∧
      ∀ n, r.error? = some ⟨n, .unbalancedEnd⟩ ↔ ∃ k, es[k]? = some (n, .finish) ∧
        Covered (directives (es.take k)) ∧
        begins (directives (es.take (k + 1))) < ends (directives (es.take (k + 1)))) ∧
    ∀ a b ps, (readLines a : Reading α).patches = .ok ps →
      (readLines a : Reading α).state.saved = [] →
      (readLines ("TransformBegin" :: (a ++ "TransformEnd" :: b)) : Reading α).patches =
        match (readLines b : Reading α).patches with
        | .ok more => .ok (ps ++ more)
        | .error e => .error { e with line := e.line + (a.length + 2) } := by
  constructor
  · intro texts es r
    refine ⟨?_, ?_, ?_⟩
    · intro k line values hget hcovered
      obtain ⟨h, t, ⟨ts, hts, rfl⟩, hpatch⟩ := placed_of_covered texts hget hcovered
      exact ⟨h, ts, hts, hpatch⟩
    · intro ps hps
      exact covered_of_patches_ok hps
    · exact unbalanced_iff texts
  · intro a b ps hps hsaved
    obtain ⟨hread, rfl⟩ := error?_of_patches_ok hps
    obtain ⟨skipped, hblock⟩ := readLines_block hread hsaved b
    rw [hblock, patches_behind]
    cases (readLines b : Reading α).patches with
    | ok more => rfl
    | error e => rfl

end Files

/- A block that is over by the time of a patch, which goes over two lines. -/
def placedPatch : List String :=
  ["Translate 1 0 0", "TransformBegin", "Scale 2 2 2", "TransformEnd",
    "Patch \"bicubic\" \"P\" [0 0 0 0 1 0 0 2 0 0 3 0 1 0 0 1 1 0 1 2 0 1 3 0",
    "2 0 0 2 1 0 2 2 0 2 3 0 3 0 0 3 1 0 3 2 0 3 3 0]"]

theorem placedPatch_scoped :
    (∃ line values, (history none 1 placedPatch : List (Entry Float))[4]? =
        some (line, .patch values) ∧
      ∃ (h : values.toArray.size = 48) (ts : List (Transform Float)),
        Standing (directives ((history none 1 placedPatch).take 4)) ts ∧
        (readLines placedPatch : Reading Float).state.patches[0]? =
          some (Patch.ofNet (net values.toArray h) (ts.foldl (· * ·) .identity) .bezier)) ∧
    (readLines ("TransformBegin" :: (placedPatch ++ ["TransformEnd", "TransformEnd"])) :
      Reading Float).patches = .error ⟨9, .unbalancedEnd⟩ := by
  obtain ⟨hnone, hsaved⟩ : (readLines placedPatch : Reading Float).error? = none ∧
      (readLines placedPatch : Reading Float).state.saved.isEmpty = true := by decide +kernel
  have hps : (readLines placedPatch : Reading Float).patches =
      .ok (readLines placedPatch : Reading Float).state.patches := by rw [Reading.patches, hnone]
  have hend : (readLines ["TransformEnd"] : Reading Float).error? = some ⟨1, .unbalancedEnd⟩ := by
    decide +kernel
  obtain ⟨hisPatch, hcount⟩ :
      (history none 1 placedPatch : List (Entry Float))[4]?.map (·.2.isPatch) = some true ∧
      patchCount ((history none 1 placedPatch : List (Entry Float)).take 4) = 0 := by decide +kernel
  obtain ⟨hfile, hblock⟩ := transforms_scoped (α := Float)
  constructor
  · obtain ⟨hplaced, hall, -⟩ := hfile placedPatch
    have hcovered := (hall _ hps).1
    rw [← List.take_append_drop 4 (history none 1 placedPatch), directives_append] at hcovered
    obtain ⟨⟨line, d⟩, hget, hd⟩ := Option.map_eq_some_iff.1 hisPatch
    cases d with
    | patch values =>
      obtain ⟨h, ts, hts, hpatch⟩ := hplaced 4 line values hget hcovered.of_append
      rw [hcount] at hpatch
      exact ⟨line, values, hget, h, ts, hts, hpatch⟩
    | begin => cases hd
    | finish => cases hd
    | move t => cases hd
    | other name => cases hd
  · have hblock' := hblock placedPatch ["TransformEnd"] _ hps (List.isEmpty_iff.1 hsaved)
    have herror : (readLines ["TransformEnd"] : Reading Float).patches =
        .error ⟨1, .unbalancedEnd⟩ := by rw [Reading.patches, hend]
    rw [herror] at hblock'
    exact hblock'

end ProceduralShapes.Rib
