import ProceduralShapes.Text.Blank

/-!
# Words between separators

A text holds the words that it is cut into: in front of a word stand any separators, and behind it
stands a separator or nothing (`Spaced`, `pieces_eq_iff`). So which separators there are, and how
many, makes no difference to the words.
-/

namespace ProceduralShapes.Text

variable {isSeparator : Char → Bool}

/-! ### Cutting -/

theorem pieces_append {c : Char} (hc : isSeparator c = true) (s t : String) :
    pieces isSeparator (s ++ String.singleton c ++ t) =
      pieces isSeparator s ++ pieces isSeparator t := by
  have hlist : (s ++ String.singleton c ++ t).toList = s.toList ++ c :: t.toList := by simp
  rw [pieces, hlist, List.splitOnP_append_cons _ _ hc, List.filter_append, List.map_append]
  rfl

theorem words_append (s t : String) : words (s ++ " " ++ t) = words s ++ words t :=
  pieces_append (c := ' ') (by decide) s t

theorem pieces_empty : pieces isSeparator "" = [] := by
  simp [pieces]

theorem pieces_gap {c : Char} (hc : isSeparator c = true) (cs : List Char) :
    pieces isSeparator (String.ofList (c :: cs)) = pieces isSeparator (String.ofList cs) := by
  have hsplit : String.ofList (c :: cs) = "" ++ String.singleton c ++ String.ofList cs := by
    rw [← String.toList_inj]
    simp
  rw [hsplit, pieces_append hc, pieces_empty, List.nil_append]

/-! ### Words -/

/- A word has a character, and none of its characters separates. -/
structure IsWord (isSeparator : Char → Bool) (w : List Char) : Prop where
  ne_nil : w ≠ []
  plain : ∀ c ∈ w, isSeparator c = false

theorem IsWord.pieces_eq {w : List Char} (h : IsWord isSeparator w) :
    pieces isSeparator (String.ofList w) = [String.ofList w] := by
  rw [pieces, String.toList_ofList, List.splitOnP_eq_singleton h.plain]
  simp [h.ne_nil]

theorem isWord_of_all {w : List Char} (h : (!w.isEmpty && w.all fun c => !isSeparator c) = true) :
    IsWord isSeparator w := by
  rw [Bool.and_eq_true, List.all_eq_true] at h
  exact ⟨by simpa using h.1, by simpa using h.2⟩

theorem isWord_cons {c : Char} {w : List Char} (hc : isSeparator c = false)
    (hw : ∀ d ∈ w, isSeparator d = false) : IsWord isSeparator (c :: w) :=
  ⟨List.cons_ne_nil c w, List.forall_mem_cons.2 ⟨hc, hw⟩⟩

theorem IsWord.append {v w : List Char} (hv : IsWord isSeparator v)
    (hw : ∀ c ∈ w, isSeparator c = false) : IsWord isSeparator (v ++ w) :=
  ⟨List.append_ne_nil_of_left_ne_nil hv.ne_nil w, List.forall_mem_append.2 ⟨hv.plain, hw⟩⟩

theorem IsWord.words_eq {s : String} (h : IsWord isBlank s.toList) : words s = [s] := by
  have hpieces := h.pieces_eq
  rwa [String.ofList_toList] at hpieces

theorem IsWord.words_append {s : String} (h : IsWord isBlank s.toList) (t : String) :
    words (s ++ " " ++ t) = s :: words t := by
  rw [Text.words_append, h.words_eq]
  rfl

/- The characters hold these words. -/
inductive Spaced (isSeparator : Char → Bool) : List String → List Char → Prop
  | nil : Spaced isSeparator [] []
  | gap {c : Char} {ws : List String} {cs : List Char} (hc : isSeparator c = true)
      (hrest : Spaced isSeparator ws cs) : Spaced isSeparator ws (c :: cs)
  | last {w : List Char} (hw : IsWord isSeparator w) : Spaced isSeparator [String.ofList w] w
  | word {w : List Char} {c : Char} {ws : List String} {cs : List Char}
      (hw : IsWord isSeparator w) (hc : isSeparator c = true)
      (hrest : Spaced isSeparator ws cs) :
      Spaced isSeparator (String.ofList w :: ws) (w ++ c :: cs)

theorem Spaced.pieces_eq {ws : List String} {cs : List Char} (h : Spaced isSeparator ws cs) :
    pieces isSeparator (String.ofList cs) = ws := by
  induction h with
  | nil => exact pieces_empty
  | gap hc _ ih => rw [pieces_gap hc, ih]
  | last hw => exact hw.pieces_eq
  | @word w c ws cs hw hc _ ih =>
    have hsplit : String.ofList (w ++ c :: cs) =
        String.ofList w ++ String.singleton c ++ String.ofList cs := by
      rw [← String.toList_inj]
      simp
    rw [hsplit, pieces_append hc, hw.pieces_eq, ih]
    rfl

/- A character in front joins the word that begins there, or is one. -/
theorem Spaced.exists_cons {c : Char} {ws : List String} {cs : List Char}
    (hc : isSeparator c = false) (h : Spaced isSeparator ws cs) :
    ∃ ws', Spaced isSeparator ws' (c :: cs) := by
  have halone : IsWord isSeparator [c] := isWord_cons hc (by simp)
  cases h with
  | nil => exact ⟨_, .last halone⟩
  | gap hd hrest => exact ⟨_, .word halone hd hrest⟩
  | last hw => exact ⟨_, .last (isWord_cons hc hw.plain)⟩
  | word hw hd hrest => exact ⟨_, .word (isWord_cons hc hw.plain) hd hrest⟩

theorem exists_spaced (isSeparator : Char → Bool) (cs : List Char) :
    ∃ ws, Spaced isSeparator ws cs := by
  induction cs with
  | nil => exact ⟨[], .nil⟩
  | cons c cs ih =>
    obtain ⟨ws, hws⟩ := ih
    cases hc : isSeparator c with
    | true => exact ⟨ws, .gap hc hws⟩
    | false => exact hws.exists_cons hc

theorem pieces_eq_iff {s : String} {ws : List String} :
    pieces isSeparator s = ws ↔ Spaced isSeparator ws s.toList := by
  have hread : ∀ ws, Spaced isSeparator ws s.toList → pieces isSeparator s = ws := by
    intro ws hws
    have hpieces := hws.pieces_eq
    rwa [String.ofList_toList] at hpieces
  refine ⟨?_, hread ws⟩
  rintro rfl
  obtain ⟨ws, hws⟩ := exists_spaced isSeparator s.toList
  rwa [hread ws hws]

end ProceduralShapes.Text
