import ProceduralShapes.Rib.Directive

/-!
# Blocks of directives

A list of directives is balanced if it has as many ends as begins and no beginning of it has more
ends. A block is a begin and an end with balanced directives between them. A move that lies in no
block of the list still stands at the end of the list; the transform there is the product of the
moves that stand (`Standing`, `Placed`).
-/

namespace ProceduralShapes.Rib

variable {α : Type}

theorem getElem?_append_of_some {β : Type} {xs : List β} {i : Nat} {x : β} (h : xs[i]? = some x)
    (ys : List β) : (xs ++ ys)[i]? = some x := by
  rw [List.getElem?_append_left (List.getElem?_eq_some_iff.1 h).1, h]

theorem getElem?_concat_eq_some {β : Type} {xs : List β} {i : Nat} {x y : β}
    (h : (xs ++ [x])[i]? = some y) : xs[i]? = some y ∨ i = xs.length ∧ x = y := by
  rcases Nat.lt_or_ge i xs.length with hlt | hge
  · rw [List.getElem?_append_left hlt] at h
    exact .inl h
  · rw [List.getElem?_append_right hge] at h
    obtain ⟨hlt, hget⟩ := List.getElem?_eq_some_iff.1 h
    rw [List.getElem_singleton] at hget
    rw [List.length_singleton] at hlt
    exact .inr ⟨by omega, hget⟩

/-! ### Begins and ends -/

def Directive.isBegin : Directive α → Bool
  | .begin => true
  | _ => false

def Directive.isFinish : Directive α → Bool
  | .finish => true
  | _ => false

def begins (ds : List (Directive α)) : Nat := ds.countP Directive.isBegin

def ends (ds : List (Directive α)) : Nat := ds.countP Directive.isFinish

@[simp] theorem begins_nil : begins ([] : List (Directive α)) = 0 := rfl

@[simp] theorem ends_nil : ends ([] : List (Directive α)) = 0 := rfl

@[simp] theorem begins_append (ds es : List (Directive α)) :
    begins (ds ++ es) = begins ds + begins es := List.countP_append

@[simp] theorem ends_append (ds es : List (Directive α)) :
    ends (ds ++ es) = ends ds + ends es := List.countP_append

@[simp] theorem begins_cons (d : Directive α) (ds : List (Directive α)) :
    begins (d :: ds) = begins ds + if d.isBegin then 1 else 0 := List.countP_cons

@[simp] theorem ends_cons (d : Directive α) (ds : List (Directive α)) :
    ends (d :: ds) = ends ds + if d.isFinish then 1 else 0 := List.countP_cons

/- No beginning of the list has more ends than begins. -/
def Covered (ds : List (Directive α)) : Prop := ∀ n, ends (ds.take n) ≤ begins (ds.take n)

structure Balanced (ds : List (Directive α)) : Prop where
  covered : Covered ds
  ends_eq : ends ds = begins ds

theorem Covered.ends_le {ds : List (Directive α)} (h : Covered ds) : ends ds ≤ begins ds := by
  have hall := h ds.length
  rwa [List.take_length] at hall

theorem covered_nil : Covered ([] : List (Directive α)) := by
  intro n
  rw [List.take_nil]
  exact Nat.le_refl _

theorem covered_append {ds es : List (Directive α)} (h : Covered ds)
    (hrest : ∀ n, ends ds + ends (es.take n) ≤ begins ds + begins (es.take n)) :
    Covered (ds ++ es) := by
  intro n
  rw [List.take_append]
  by_cases hn : n ≤ ds.length
  · have hzero : n - ds.length = 0 := by omega
    rw [hzero, List.take_zero, List.append_nil]
    exact h n
  · rw [List.take_of_length_le (by omega), ends_append, begins_append]
    exact hrest (n - ds.length)

theorem covered_append_singleton {ds : List (Directive α)} {d : Directive α} (h : Covered ds)
    (hall : ends (ds ++ [d]) ≤ begins (ds ++ [d])) : Covered (ds ++ [d]) := by
  refine covered_append h ?_
  intro n
  cases n with
  | zero => simpa using h.ends_le
  | succ n => simpa using hall

theorem Covered.of_append {ds es : List (Directive α)} (h : Covered (ds ++ es)) : Covered ds := by
  intro n
  by_cases hn : n ≤ ds.length
  · have hpart := h n
    rwa [List.take_append_of_le_length hn] at hpart
  · have hpart := h ds.length
    rw [List.take_left] at hpart
    rwa [List.take_of_length_le (by omega)]

theorem balanced_nil : Balanced ([] : List (Directive α)) := ⟨covered_nil, rfl⟩

theorem Balanced.append {ds es : List (Directive α)} (h : Balanced ds) (h' : Balanced es) :
    Balanced (ds ++ es) := by
  have heq := h.ends_eq
  refine ⟨covered_append h.covered ?_, ?_⟩
  · intro n
    have hn := h'.covered n
    omega
  · rw [ends_append, begins_append, heq, h'.ends_eq]

theorem balanced_singleton {d : Directive α} (hb : d.isBegin = false) (hf : d.isFinish = false) :
    Balanced [d] := by
  refine ⟨covered_append_singleton covered_nil ?_, ?_⟩
  · simp [hb, hf]
  · simp [hb, hf]

theorem balanced_block {inner : List (Directive α)} (h : Balanced inner) :
    Balanced (.begin :: (inner ++ [.finish])) := by
  have heq := h.ends_eq
  have hopen : Covered (.begin :: inner) := by
    have hbegin : Covered [(.begin : Directive α)] := by
      refine covered_append_singleton covered_nil ?_
      simp [Directive.isFinish]
    refine covered_append hbegin ?_
    intro n
    have hn := h.covered n
    simp [Directive.isBegin, Directive.isFinish]
    omega
  refine ⟨?_, ?_⟩
  · refine covered_append_singleton hopen ?_
    simp [Directive.isBegin, Directive.isFinish, heq]
  · simp [Directive.isBegin, Directive.isFinish, heq]

/-! ### Directives in a block -/

/- Directive number `i` lies between the begin and the end of a block of the list. -/
def Enclosed (ds : List (Directive α)) (i : Nat) : Prop :=
  ∃ b e, b < i ∧ i < e ∧ ds[b]? = some .begin ∧ ds[e]? = some .finish ∧
    Balanced ((ds.take e).drop (b + 1))

theorem Enclosed.append {ds : List (Directive α)} {i : Nat} (h : Enclosed ds i)
    (es : List (Directive α)) : Enclosed (ds ++ es) i := by
  obtain ⟨b, e, hb, he, hbegin, hfinish, hbalanced⟩ := h
  have hlt : e < ds.length := (List.getElem?_eq_some_iff.1 hfinish).1
  refine ⟨b, e, hb, he, getElem?_append_of_some hbegin es, getElem?_append_of_some hfinish es, ?_⟩
  rwa [List.take_append_of_le_length (by omega)]

/- A block that ends before `es` begins is one without it. -/
theorem enclosed_of_lt {ds es : List (Directive α)} {i b e : Nat} (hlt : e < ds.length)
    (hb : b < i) (he : i < e) (hbegin : (ds ++ es)[b]? = some .begin)
    (hfinish : (ds ++ es)[e]? = some .finish)
    (hbalanced : Balanced (((ds ++ es).take e).drop (b + 1))) : Enclosed ds i := by
  rw [List.getElem?_append_left (by omega)] at hbegin
  rw [List.getElem?_append_left hlt] at hfinish
  rw [List.take_append_of_le_length (by omega)] at hbalanced
  exact ⟨b, e, hb, he, hbegin, hfinish, hbalanced⟩

theorem enclosed_append_singleton {ds : List (Directive α)} {d : Directive α} (hd : d ≠ .finish)
    {i : Nat} : Enclosed (ds ++ [d]) i ↔ Enclosed ds i := by
  constructor
  · rintro ⟨b, e, hb, he, hbegin, hfinish, hbalanced⟩
    refine enclosed_of_lt ?_ hb he hbegin hfinish hbalanced
    rcases getElem?_concat_eq_some hfinish with hget | ⟨-, heq⟩
    · exact (List.getElem?_eq_some_iff.1 hget).1
    · exact absurd heq hd
  · intro h
    exact h.append [d]

/- A block that begins before a begin does not end inside the directives of the block that this
one opens. -/
theorem not_balanced_across {ds inner : List (Directive α)} {b e : Nat} (hinner : Covered inner)
    (hb : b < ds.length) (he : ds.length < e)
    (hle : e ≤ ds.length + 1 + inner.length) (more : List (Directive α)) :
    ¬Balanced (((ds ++ .begin :: inner ++ more).take e).drop (b + 1)) := by
  intro h
  obtain ⟨k, rfl⟩ : ∃ k, e = ds.length + (k + 1) := ⟨e - ds.length - 1, by omega⟩
  have hsegment : ((ds ++ .begin :: inner ++ more).take (ds.length + (k + 1))).drop (b + 1) =
      ds.drop (b + 1) ++ (.begin :: inner.take k) := by
    rw [List.take_append_of_le_length (by simp only [List.length_append, List.length_cons]; omega),
      List.take_length_add_append, List.drop_append_of_le_length hb, List.take_succ_cons]
  rw [hsegment] at h
  have hoff := h.covered.of_append.ends_le
  have hin := hinner k
  have heq := h.ends_eq
  simp only [ends_append, begins_append, ends_cons, begins_cons, Directive.isBegin,
    Directive.isFinish] at heq
  simp at heq
  omega

/- The last end closes the innermost open block: all between it and its begin is enclosed now. -/
theorem enclosed_block {ds inner : List (Directive α)} (hinner : Balanced inner) {i : Nat} :
    Enclosed (ds ++ .begin :: inner ++ [.finish]) i ↔
      Enclosed ds i ∨ ds.length < i ∧ i ≤ ds.length + inner.length := by
  have hlength : (ds ++ .begin :: inner).length = ds.length + 1 + inner.length := by
    simp only [List.length_append, List.length_cons]
    omega
  constructor
  · rintro ⟨b, e, hb, he, hbegin, hfinish, hbalanced⟩
    have hle : e ≤ ds.length + 1 + inner.length := by
      have hlt := (List.getElem?_eq_some_iff.1 hfinish).1
      rw [List.length_append, hlength, List.length_singleton] at hlt
      omega
    rcases Nat.lt_trichotomy e ds.length with hbefore | hat | hafter
    · rw [List.append_assoc] at hbegin hfinish hbalanced
      exact .inl (enclosed_of_lt hbefore hb he hbegin hfinish hbalanced)
    · -- At this place stands a begin.
      subst hat
      rw [List.append_assoc, List.getElem?_append_right (Nat.le_refl _)] at hfinish
      simp at hfinish
    · by_cases hin : b < ds.length
      · exact absurd hbalanced (not_balanced_across hinner.covered hin hafter hle [.finish])
      · exact .inr ⟨by omega, by omega⟩
  · rintro (h | ⟨hlo, hhi⟩)
    · rw [List.append_assoc]
      exact h.append _
    · refine ⟨ds.length, ds.length + 1 + inner.length, hlo, by omega, ?_, ?_, ?_⟩
      · rw [List.append_assoc, List.getElem?_append_right (Nat.le_refl _)]
        simp
      · rw [← hlength, List.getElem?_append_right (Nat.le_refl _)]
        simp
      · have hsplit : ds ++ .begin :: inner = (ds ++ [.begin]) ++ inner := by simp
        have hskip : ds.length + 1 = (ds ++ [Directive.begin]).length := by simp
        rw [← hlength, List.take_left, hsplit, hskip, List.drop_left]
        exact hinner

/-! ### Moves that stand -/

/- The matrices of the moves that lie in no block of the list, in their order. -/
def Standing (ds : List (Directive α)) (ts : List (Transform α)) : Prop :=
  ∃ is : List Nat, is.Pairwise (· < ·) ∧
    (∀ i, i ∈ is ↔ (∃ t, ds[i]? = some (.move t)) ∧ ¬Enclosed ds i) ∧
    is.map (ds[·]?) = ts.map fun t => some (.move t)

theorem standing_nil : Standing ([] : List (Directive α)) [] := ⟨[], .nil, by simp, rfl⟩

/- What comes behind changes nothing if it holds no move that stands and encloses none. -/
theorem Standing.append {ds es : List (Directive α)} {ts : List (Transform α)} (h : Standing ds ts)
    (hsame : ∀ i < ds.length, Enclosed (ds ++ es) i → Enclosed ds i)
    (hnew : ∀ i t, ds.length ≤ i → (ds ++ es)[i]? = some (.move t) → Enclosed (ds ++ es) i) :
    Standing (ds ++ es) ts := by
  obtain ⟨is, hsorted, hmem, hmap⟩ := h
  refine ⟨is, hsorted, ?_, ?_⟩
  · intro i
    rw [hmem i]
    constructor
    · rintro ⟨⟨t, ht⟩, hopen⟩
      have hlt := (List.getElem?_eq_some_iff.1 ht).1
      exact ⟨⟨t, getElem?_append_of_some ht es⟩, fun henc => hopen (hsame i hlt henc)⟩
    · rintro ⟨⟨t, ht⟩, hopen⟩
      have hlt : i < ds.length := Nat.lt_of_not_le fun hge => hopen (hnew i t hge ht)
      rw [List.getElem?_append_left hlt] at ht
      exact ⟨⟨t, ht⟩, fun henc => hopen (henc.append es)⟩
  · rw [← hmap]
    refine List.map_congr_left ?_
    intro i hi
    obtain ⟨⟨t, ht⟩, -⟩ := (hmem i).1 hi
    rw [ht]
    exact getElem?_append_of_some ht es

theorem Standing.append_singleton {ds : List (Directive α)} {ts : List (Transform α)}
    {d : Directive α} (h : Standing ds ts) (hfinish : d ≠ .finish) (hmove : ∀ t, d ≠ .move t) :
    Standing (ds ++ [d]) ts := by
  refine h.append (fun i _ henc => (enclosed_append_singleton hfinish).1 henc) ?_
  intro i t hge hi
  rcases getElem?_concat_eq_some hi with hget | ⟨-, heq⟩
  · exact absurd (List.getElem?_eq_some_iff.1 hget).1 (Nat.not_lt_of_le hge)
  · exact absurd heq (hmove t)

theorem Standing.append_block {ds inner : List (Directive α)} {ts : List (Transform α)}
    (h : Standing ds ts) (hinner : Balanced inner) :
    Standing (ds ++ .begin :: inner ++ [.finish]) ts := by
  rw [List.append_assoc]
  refine h.append ?_ ?_
  · intro i hlt henc
    rw [← List.append_assoc] at henc
    rcases (enclosed_block hinner).1 henc with henc | ⟨hgt, _⟩
    · exact henc
    · omega
  · intro i t hge hi
    rw [← List.append_assoc]
    refine (enclosed_block hinner).2 (.inr ?_)
    -- Neither the begin nor the end of the block is a move.
    have hlt := (List.getElem?_eq_some_iff.1 hi).1
    rw [List.length_append, List.cons_append, List.length_cons, List.length_append,
      List.length_singleton] at hlt
    rw [List.getElem?_append_right hge] at hi
    have hfirst : i ≠ ds.length := by
      rintro rfl
      simp at hi
    have hlast : i ≠ ds.length + 1 + inner.length := by
      rintro rfl
      have hindex : ds.length + 1 + inner.length - ds.length = inner.length + 1 := by omega
      rw [hindex] at hi
      simp at hi
    omega

theorem Standing.append_move {ds : List (Directive α)} {ts : List (Transform α)}
    (h : Standing ds ts) (t : Transform α) : Standing (ds ++ [.move t]) (ts ++ [t]) := by
  obtain ⟨is, hsorted, hmem, hmap⟩ := h
  have hlast : (ds ++ [.move t])[ds.length]? = some (.move t) := by simp
  have henclosed {i : Nat} : Enclosed (ds ++ [.move t]) i ↔ Enclosed ds i :=
    enclosed_append_singleton (by simp)
  have hbelow {i : Nat} (hi : i ∈ is) : i < ds.length := by
    obtain ⟨⟨u, hu⟩, -⟩ := (hmem i).1 hi
    exact (List.getElem?_eq_some_iff.1 hu).1
  refine ⟨is ++ [ds.length], ?_, ?_, ?_⟩
  · refine List.pairwise_append.2 ⟨hsorted, List.pairwise_singleton _ _, ?_⟩
    intro i hi j hj
    rw [List.mem_singleton.1 hj]
    exact hbelow hi
  · intro i
    rw [List.mem_append, List.mem_singleton, hmem i, henclosed]
    constructor
    · rintro (⟨⟨u, hu⟩, hopen⟩ | rfl)
      · exact ⟨⟨u, getElem?_append_of_some hu _⟩, hopen⟩
      · refine ⟨⟨t, hlast⟩, ?_⟩
        rintro ⟨b, e, _, he, _, hfinish, _⟩
        have hlt := (List.getElem?_eq_some_iff.1 hfinish).1
        omega
    · rintro ⟨⟨u, hu⟩, hopen⟩
      rcases getElem?_concat_eq_some hu with hu | ⟨hi, -⟩
      · exact .inl ⟨⟨u, hu⟩, hopen⟩
      · exact .inr hi
  · rw [List.map_append, List.map_append, ← hmap, List.map_singleton, List.map_singleton, hlast]
    congr 1
    refine List.map_congr_left ?_
    intro i hi
    rw [List.getElem?_append_left (hbelow hi)]

/-! ### The transform in effect -/

section Placed
variable [Scalar α]

/- The product of the moves that stand, multiplied from the left on, beginning with the identity. -/
def Placed (ds : List (Directive α)) (t : Transform α) : Prop :=
  ∃ ts, Standing ds ts ∧ ts.foldl (· * ·) .identity = t

theorem placed_nil : Placed ([] : List (Directive α)) .identity := ⟨[], standing_nil, rfl⟩

theorem Placed.append_singleton {ds : List (Directive α)} {t : Transform α} {d : Directive α}
    (h : Placed ds t) (hfinish : d ≠ .finish) (hmove : ∀ u, d ≠ .move u) :
    Placed (ds ++ [d]) t := by
  obtain ⟨ts, hts, rfl⟩ := h
  exact ⟨ts, hts.append_singleton hfinish hmove, rfl⟩

theorem Placed.append_move {ds : List (Directive α)} {t : Transform α} (h : Placed ds t)
    (u : Transform α) : Placed (ds ++ [.move u]) (t * u) := by
  obtain ⟨ts, hts, rfl⟩ := h
  refine ⟨ts ++ [u], hts.append_move u, ?_⟩
  rw [List.foldl_append]
  rfl

theorem Placed.append_block {ds inner : List (Directive α)} {t : Transform α} (h : Placed ds t)
    (hinner : Balanced inner) : Placed (ds ++ .begin :: inner ++ [.finish]) t := by
  obtain ⟨ts, hts, rfl⟩ := h
  exact ⟨ts, hts.append_block hinner, rfl⟩

end Placed

/-! ### Open blocks -/

/- The saved transforms are those where the blocks still open began, the innermost first. -/
inductive Open [Scalar α] : List (Directive α) → List (Transform α) → Prop
  | nil {ds : List (Directive α)} (h : Balanced ds) : Open ds []
  | cons {ds inner : List (Directive α)} {t : Transform α} {saved : List (Transform α)}
      (hplaced : Placed ds t) (h : Open ds saved) (hinner : Balanced inner) :
      Open (ds ++ .begin :: inner) (t :: saved)

section Open
variable [Scalar α] {ds : List (Directive α)} {saved : List (Transform α)}

theorem Open.append {es : List (Directive α)} (h : Open ds saved) (hes : Balanced es) :
    Open (ds ++ es) saved := by
  cases h with
  | nil h => exact .nil (h.append hes)
  | cons hplaced h hinner =>
    rw [List.append_assoc, List.cons_append]
    exact .cons hplaced h (hinner.append hes)

/- The end of a block goes back to where the block began. -/
theorem Open.append_finish {t : Transform α} (h : Open ds (t :: saved)) :
    Placed (ds ++ [.finish]) t ∧ Open (ds ++ [.finish]) saved := by
  cases h with
  | cons hplaced h hinner =>
    refine ⟨hplaced.append_block hinner, ?_⟩
    rw [List.append_assoc]
    exact h.append (balanced_block hinner)

theorem Open.counts (h : Open ds saved) : Covered ds ∧ begins ds = ends ds + saved.length := by
  induction h with
  | nil h => exact ⟨h.covered, h.ends_eq.symm⟩
  | @cons ds inner t saved hplaced h hinner ih =>
    obtain ⟨hcovered, hcount⟩ := ih
    have heq := hinner.ends_eq
    refine ⟨covered_append hcovered ?_, ?_⟩
    · intro n
      cases n with
      | zero => simpa using hcovered.ends_le
      | succ n =>
        have hn := hinner.covered n
        simp only [List.take_succ_cons, ends_cons, begins_cons, Directive.isBegin,
          Directive.isFinish]
        simp
        omega
    · simp [Directive.isBegin, Directive.isFinish, heq, hcount]
      omega

end Open

end ProceduralShapes.Rib
