import Mathlib.Data.List.Forall2

/-!
# Results that may be errors

When a computation made of two or of many succeeds, when two go the same way, what the errors of one
can be and which of several it is, and errors that are replaced.
-/

namespace ProceduralShapes.Fallible

variable {ε ε' β γ : Type} {x : Except ε β}

theorem map_eq_ok_iff {f : β → γ} {c : γ} : x.map f = .ok c ↔ ∃ b, x = .ok b ∧ f b = c := by
  cases x with
  | error e => simp [Except.map]
  | ok b => simp [Except.map]

theorem bind_eq_ok_iff {f : β → Except ε γ} {c : γ} :
    x >>= f = .ok c ↔ ∃ b, x = .ok b ∧ f b = .ok c := by
  cases x with
  | error e => simp [bind, Except.bind]
  | ok b => simp [bind, Except.bind]

/- Both are the same error, or both are values, and these belong together. -/
def Both (P : β → γ → Prop) (x : Except ε β) (y : Except ε γ) : Prop :=
  (∃ e, x = .error e ∧ y = .error e) ∨ ∃ b c, x = .ok b ∧ y = .ok c ∧ P b c

theorem both_error {P : β → γ → Prop} (e : ε) : Both P (.error e) (.error e) :=
  .inl ⟨e, rfl, rfl⟩

theorem both_ok {P : β → γ → Prop} {b : β} {c : γ} (h : P b c) :
    Both P (.ok b : Except ε β) (.ok c) := .inr ⟨b, c, rfl, rfl, h⟩

theorem both_of_map_eq {δ : Type} {y : Except ε γ} {f : β → δ} {g : γ → δ}
    (h : x.map f = y.map g) : Both (fun b c => f b = g c) x y := by
  cases x with
  | error e =>
    cases y with
    | error e' =>
      cases h
      exact both_error e
    | ok c => cases h
  | ok b =>
    cases y with
    | error e => cases h
    | ok c => exact both_ok (Except.ok.inj h)

@[simp] theorem mapError_ok (g : ε → ε') (b : β) :
    (.ok b : Except ε β).mapError g = .ok b := rfl

@[simp] theorem mapError_error (g : ε → ε') (e : ε) :
    (.error e : Except ε β).mapError g = .error (g e) := rfl

theorem mapError_eq_ok_iff {g : ε → ε'} {b : β} : x.mapError g = .ok b ↔ x = .ok b := by
  cases x with
  | error e => simp
  | ok b' => simp

theorem mapError_map (g : ε → ε') (f : β → γ) : (x.mapError g).map f = (x.map f).mapError g := by
  cases x with
  | error e => rfl
  | ok b => rfl

theorem mapError_bind (g : ε → ε') (f : β → Except ε γ) :
    (x >>= f).mapError g = x.mapError g >>= fun b => (f b).mapError g := by
  cases x with
  | error e => rfl
  | ok b => rfl

/- What is collected are the results, one by one. -/
theorem mapM_eq_ok_iff {f : β → Except ε γ} {bs : List β} {cs : List γ} :
    bs.mapM f = .ok cs ↔ List.Forall₂ (fun b c => f b = .ok c) bs cs := by
  induction bs generalizing cs with
  | nil =>
    rw [List.forall₂_nil_left_iff, List.mapM_nil]
    exact ⟨fun h => (Except.ok.inj h).symm, fun h => h ▸ rfl⟩
  | cons b bs ih =>
    rw [List.mapM_cons, bind_eq_ok_iff, List.forall₂_cons_left_iff]
    constructor
    · rintro ⟨c, hc, h⟩
      obtain ⟨cs', hcs', heq⟩ := bind_eq_ok_iff.1 h
      exact ⟨c, cs', hc, ih.1 hcs', (Except.ok.inj heq).symm⟩
    · rintro ⟨c, cs', hc, hcs', rfl⟩
      exact ⟨c, hc, bind_eq_ok_iff.2 ⟨cs', ih.2 hcs', rfl⟩⟩

theorem mapM_of_forall_ok {f : β → Except ε γ} {g : β → γ} {bs : List β}
    (h : ∀ b ∈ bs, f b = .ok (g b)) : bs.mapM f = .ok (bs.map g) :=
  mapM_eq_ok_iff.2 (List.forall₂_map_right_iff.2 (List.forall₂_same.2 h))

/-! ### What the errors can be -/

/- If there is an error, it is one of these. -/
def FailsOnly (P : ε → Prop) (x : Except ε β) : Prop := ∀ e, x = .error e → P e

variable {P : ε → Prop}

theorem failsOnly_ok (b : β) : FailsOnly P (.ok b) := by
  intro e h
  cases h

theorem failsOnly_error {e : ε} (h : P e) : FailsOnly P (.error e : Except ε β) := by
  intro e' heq
  cases heq
  exact h

theorem FailsOnly.mono {Q : ε → Prop} (hx : FailsOnly P x) (h : ∀ e, P e → Q e) :
    FailsOnly Q x := fun e he => h e (hx e he)

theorem FailsOnly.bind {f : β → Except ε γ} (hx : FailsOnly P x) (hf : ∀ b, FailsOnly P (f b)) :
    FailsOnly P (x >>= f) := by
  cases x with
  | error e => exact failsOnly_error (hx e rfl)
  | ok b => exact hf b

theorem FailsOnly.map (hx : FailsOnly P x) (f : β → γ) : FailsOnly P (x.map f) := by
  cases x with
  | error e => exact failsOnly_error (hx e rfl)
  | ok b => exact failsOnly_ok (f b)

theorem failsOnly_mapM {f : β → Except ε γ} (hf : ∀ b, FailsOnly P (f b)) (bs : List β) :
    FailsOnly P (bs.mapM f) := by
  induction bs with
  | nil => exact failsOnly_ok []
  | cons b bs ih =>
    rw [List.mapM_cons]
    exact (hf b).bind fun c => ih.bind fun cs => failsOnly_ok (c :: cs)

/-! ### The first of several faults -/

section Blames
variable {fs gs : List ε}

/- The error, if there is one, is the first of these faults. -/
def Blames (fs : List ε) (x : Except ε β) : Prop := ∀ e, x = .error e ↔ fs.head? = some e

theorem blames_ok (b : β) : Blames ([] : List ε) (.ok b) := by
  intro e
  simp

theorem blames_error (e : ε) (fs : List ε) : Blames (e :: fs) (.error e : Except ε β) := by
  intro e'
  simp

theorem Blames.exists_eq_cons {e : ε} (h : Blames fs (.error e : Except ε β)) :
    ∃ rest, fs = e :: rest := List.head?_eq_some_iff.1 ((h e).1 rfl)

theorem Blames.eq_nil {b : β} (h : Blames fs (.ok b)) : fs = [] := by
  cases fs with
  | nil => rfl
  | cons e rest => exact nomatch (h e).2 rfl

theorem Blames.exists_ok_iff (h : Blames fs x) : (∃ b, x = .ok b) ↔ fs = [] := by
  cases x with
  | error e =>
    obtain ⟨rest, rfl⟩ := h.exists_eq_cons
    simp
  | ok b => exact ⟨fun _ => h.eq_nil, fun _ => ⟨b, rfl⟩⟩

theorem Blames.map (h : Blames fs x) (f : β → γ) : Blames fs (x.map f) := by
  cases x with
  | error e =>
    obtain ⟨rest, rfl⟩ := h.exists_eq_cons
    exact blames_error e rest
  | ok b =>
    rw [h.eq_nil]
    exact blames_ok (f b)

/- What comes second is looked at only if nothing is wrong with what comes first. -/
theorem Blames.bind {f : β → Except ε γ} (h : Blames fs x)
    (hf : ∀ b, x = .ok b → Blames gs (f b)) : Blames (fs ++ gs) (x >>= f) := by
  cases x with
  | error e =>
    obtain ⟨rest, rfl⟩ := h.exists_eq_cons
    exact blames_error e (rest ++ gs)
  | ok b =>
    rw [h.eq_nil, List.nil_append]
    exact hf b rfl

theorem blames_mapM {f : β → Except ε γ} {faults : β → List ε}
    (hf : ∀ b, Blames (faults b) (f b)) (bs : List β) :
    Blames (bs.flatMap faults) (bs.mapM f) := by
  induction bs with
  | nil => exact blames_ok []
  | cons b bs ih =>
    rw [List.mapM_cons, List.flatMap_cons]
    exact (hf b).bind fun c _ => ih.map (c :: ·)

end Blames

end ProceduralShapes.Fallible
