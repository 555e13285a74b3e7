import ProceduralShapes.Proofs.Grammar.Motion

/-!
# The language of specs

A spec is a sentence: phrases of an operator and as many numbers as it takes, one behind the other,
each of which says one motion (`Sentence`). Reading accepts the sentences and gives what they say.
In any other spec the fault lies behind the longest sentence that it begins with, and what it is
depends on the words there (`Fault`).
-/

namespace ProceduralShapes.Spec

open Decimal (Numeral read?)

variable {α : Type}

/-! ### Phrases -/

/- The operators, with the number of operands that each takes. -/
def arities : List (String × Nat) :=
  [("tx", 1), ("ty", 1), ("tz", 1), ("t", 3), ("rx", 1), ("ry", 1), ("rz", 1), ("sx", 1), ("sy", 1),
    ("sz", 1), ("sa", 1), ("s", 3)]

theorem mem_arities_iff {word : String} {k : Nat} :
    (word, k) ∈ arities ↔ ∃ op, Operator.ofWord? word = some op ∧ op.arity = k := by
  constructor
  · intro h
    simp only [arities, List.mem_cons, Prod.mk.injEq, List.not_mem_nil, or_false] at h
    rcases h with ⟨rfl, rfl⟩ | ⟨rfl, rfl⟩ | ⟨rfl, rfl⟩ | ⟨rfl, rfl⟩ | ⟨rfl, rfl⟩ | ⟨rfl, rfl⟩ |
      ⟨rfl, rfl⟩ | ⟨rfl, rfl⟩ | ⟨rfl, rfl⟩ | ⟨rfl, rfl⟩ | ⟨rfl, rfl⟩ | ⟨rfl, rfl⟩
    all_goals exact ⟨_, rfl, rfl⟩
  · rintro ⟨op, hop, rfl⟩
    unfold Operator.ofWord? at hop
    split at hop
    all_goals cases hop
    all_goals decide

section Numerals
variable [Numeral α]

/- Every word is a number, and these are the numbers. -/
abbrev Numerals (ws : List String) (xs : List α) : Prop :=
  List.Forall₂ (fun word x => read? word = some x) ws xs

/- The first of the words that is no number. -/
def firstBad? (α : Type) [Numeral α] (ws : List String) : Option String :=
  ws.find? fun word => (read? word : Option α).isNone

theorem firstBad?_of_numerals {ws : List String} {xs : List α} (h : Numerals ws xs) :
    firstBad? α ws = none := by
  refine List.find?_eq_none.2 fun word hword => ?_
  obtain ⟨i, hi, rfl⟩ := List.getElem_of_mem hword
  have hread : read? ws[i] = some _ := h.get hi (h.length_eq ▸ hi)
  simp [hread]

end Numerals

section Phrases
variable [Scalar α]

/- The motion that an operator says with its operands. Angles are in degrees. -/
inductive Says : String → List α → Motion α → Prop
  | tx (x : α) : Says "tx" [x] (.translate ⟨x, 0, 0⟩)
  | ty (y : α) : Says "ty" [y] (.translate ⟨0, y, 0⟩)
  | tz (z : α) : Says "tz" [z] (.translate ⟨0, 0, z⟩)
  | t (x y z : α) : Says "t" [x, y, z] (.translate ⟨x, y, z⟩)
  | rx (degrees : α) : Says "rx" [degrees] (.rotateX degrees)
  | ry (degrees : α) : Says "ry" [degrees] (.rotateY degrees)
  | rz (degrees : α) : Says "rz" [degrees] (.rotateZ degrees)
  | sx (x : α) : Says "sx" [x] (.scale ⟨x, 1, 1⟩)
  | sy (y : α) : Says "sy" [y] (.scale ⟨1, y, 1⟩)
  | sz (z : α) : Says "sz" [z] (.scale ⟨1, 1, z⟩)
  | sa (x : α) : Says "sa" [x] (.scale ⟨x, x, x⟩)
  | s (x y z : α) : Says "s" [x, y, z] (.scale ⟨x, y, z⟩)

theorem says_iff {word : String} {xs : List α} {m : Motion α} :
    Says word xs m ↔ ∃ op, Operator.ofWord? word = some op ∧ xs.length = op.arity ∧
      op.motion (axes xs) = m := by
  constructor
  · intro h
    cases h
    all_goals exact ⟨_, rfl, rfl, rfl⟩
  · rintro ⟨op, hop, hlength, rfl⟩
    unfold Operator.ofWord? at hop
    split at hop
    case h_4 | h_12 =>
      cases hop
      obtain ⟨x, y, z, rfl⟩ := List.length_eq_three.1 hlength
      constructor
    case h_13 => cases hop
    all_goals
      cases hop
      obtain ⟨x, rfl⟩ := List.length_eq_one_iff.1 hlength
      constructor

variable [Numeral α]

/- The words are phrases one behind the other, and say these motions. -/
inductive Sentence : List String → List (Motion α) → Prop
  | nil : Sentence [] []
  | phrase {word : String} {args : List String} {xs : List α} {m : Motion α} {rest : List String}
      {ms : List (Motion α)} (hargs : Numerals args xs) (hmeant : Says word xs m)
      (hrest : Sentence rest ms) : Sentence (word :: (args ++ rest)) (m :: ms)

theorem sentence_iff_means {ws : List String} {ms : List (Motion α)} :
    Sentence ws ms ↔ Means ws ms := by
  constructor
  · intro h
    induction h with
    | nil => exact .nil
    | phrase hargs hmeant _ ih =>
      obtain ⟨op, hop, hlength, rfl⟩ := says_iff.1 hmeant
      exact .cons hop (hargs.length_eq.trans hlength) hargs ih
  · intro h
    induction h with
    | nil => exact .nil
    | cons hop hlen hargs _ ih =>
      exact .phrase hargs (says_iff.2 ⟨_, hop, hargs.length_eq.symm.trans hlen, rfl⟩) ih

theorem motionsFrom_eq_ok_iff {spec : String} {position : Nat} {ws : List String}
    {ms : List (Motion α)} : motionsFrom spec position ws = .ok ms ↔ Sentence ws ms := by
  rw [sentence_iff_means]
  exact ⟨means_of_motionsFrom, fun h => motionsFrom_of_means h spec position⟩

theorem motionsFrom_append {ws : List String} {ms : List (Motion α)} (h : Sentence ws ms)
    (spec : String) (position : Nat) (rest : List String) :
    motionsFrom spec position (ws ++ rest) =
      (motionsFrom spec (position + ws.length) rest).map (ms ++ ·) :=
  motionsFrom_append_of_means (sentence_iff_means.1 h) spec position rest

/- What follows a sentence in a sentence is a sentence. -/
theorem Sentence.of_append {ws rest : List String} {ms ms' : List (Motion α)} (h : Sentence ws ms)
    (hall : Sentence (ws ++ rest) ms') : ∃ later : List (Motion α), Sentence rest later := by
  have hread := motionsFrom_append h "" 0 rest
  rw [motionsFrom_eq_ok_iff.2 hall, eq_comm] at hread
  obtain ⟨later, hlater, -⟩ := Fallible.map_eq_ok_iff.1 hread
  exact ⟨later, motionsFrom_eq_ok_iff.1 hlater⟩

/- A sentence begins with an operator and its operands. -/
theorem Sentence.first_phrase {word : String} {rest : List String} {ms : List (Motion α)}
    (h : Sentence (word :: rest) ms) :
    ∃ k, (word, k) ∈ arities ∧ k ≤ rest.length ∧ firstBad? α (rest.take k) = none := by
  cases h with
  | @phrase _ args xs m rest ms hargs hmeant hrest =>
    obtain ⟨op, hop, hlength, -⟩ := says_iff.1 hmeant
    have hk : args.length = op.arity := hargs.length_eq.trans hlength
    refine ⟨op.arity, mem_arities_iff.2 ⟨op, hop, rfl⟩, ?_, ?_⟩
    · rw [List.length_append]
      omega
    · rw [← hk, List.take_left]
      exact firstBad?_of_numerals hargs

end Phrases

/-! ### Faults -/

section Faults
variable [Numeral α]

/- What is wrong where the words `word :: rest` begin no phrase: the word is no operator, or one of
its operands is no number, or there are too few. -/
inductive Fault (α : Type) [Numeral α] (spec : String) (position : Nat) (word : String)
    (rest : List String) : Error → Prop
  | unknown (hword : ∀ k, (word, k) ∉ arities) :
      Fault α spec position word rest (.unknownOperator word position spec)
  | invalid {k : Nat} {bad : String} (hword : (word, k) ∈ arities)
      (hbad : firstBad? α (rest.take k) = some bad) :
      Fault α spec position word rest (.invalidOperand word bad spec)
  | missing {k : Nat} (hword : (word, k) ∈ arities) (hshort : rest.length < k)
      (hgood : firstBad? α rest = none) :
      Fault α spec position word rest (.missingOperand word spec)

theorem arity_unique {word : String} {k k' : Nat} (h : (word, k) ∈ arities)
    (h' : (word, k') ∈ arities) : k = k' := by
  obtain ⟨op, hop, rfl⟩ := mem_arities_iff.1 h
  obtain ⟨op', hop', rfl⟩ := mem_arities_iff.1 h'
  rw [hop, Option.some.injEq] at hop'
  rw [hop']

theorem Fault.unique {spec word : String} {position : Nat} {rest : List String} {e e' : Error}
    (h : Fault α spec position word rest e) (h' : Fault α spec position word rest e') : e = e' := by
  cases h with
  | unknown hword =>
    cases h' with
    | unknown _ => rfl
    | invalid hword' _ => exact absurd hword' (hword _)
    | missing hword' _ _ => exact absurd hword' (hword _)
  | @invalid k bad hword hbad =>
    cases h' with
    | unknown hword' => exact absurd hword (hword' _)
    | invalid hword' hbad' =>
      rw [arity_unique hword hword', hbad', Option.some.injEq] at hbad
      rw [hbad]
    | missing hword' hshort hgood =>
      obtain rfl := arity_unique hword hword'
      rw [List.take_of_length_le (Nat.le_of_lt hshort), hgood] at hbad
      cases hbad
  | missing hword hshort hgood =>
    cases h' with
    | unknown hword' => exact absurd hword (hword' _)
    | invalid hword' hbad =>
      obtain rfl := arity_unique hword hword'
      rw [List.take_of_length_le (Nat.le_of_lt hshort), hgood] at hbad
      cases hbad
    | missing _ _ _ => rfl

/- No phrase begins where there is a fault. -/
theorem Fault.not_sentence [Scalar α] {spec word : String} {position : Nat} {rest more : List String}
    {e : Error} (h : Fault α spec position word rest e) (hmore : more <+: rest)
    (ms : List (Motion α)) : ¬Sentence (word :: more) ms := by
  intro hsentence
  obtain ⟨k, hk, hlength, hgood⟩ := hsentence.first_phrase
  obtain ⟨behind, rfl⟩ := hmore
  have htake : (more ++ behind).take k = more.take k := List.take_append_of_le_length hlength
  rw [← htake] at hgood
  cases h with
  | unknown hword => exact hword k hk
  | invalid hword hbad =>
    obtain rfl := arity_unique hword hk
    rw [hgood] at hbad
    cases hbad
  | missing hword hshort _ =>
    obtain rfl := arity_unique hword hk
    rw [List.length_append] at hshort
    omega

theorem firstBad?_of_operands {k : Nat} {ws : List String} {bad? : Option String}
    (h : (operands k ws : Except _ (List α)) = .error bad?) :
    firstBad? α (ws.take k) = bad? ∧ (bad? = none → ws.length < k) := by
  induction k generalizing ws with
  | zero => cases h
  | succ k ih =>
    cases ws with
    | nil =>
      cases h
      exact ⟨rfl, fun _ => Nat.succ_pos k⟩
    | cons word ws =>
      cases hword : read? (α := α) word with
      | none =>
        simp only [operands, hword] at h
        cases h
        exact ⟨by simp [firstBad?, hword], by simp⟩
      | some x =>
        simp only [operands, hword] at h
        cases htail : operands (α := α) k ws with
        | ok xs =>
          rw [htail] at h
          cases h
        | error e =>
          rw [htail] at h
          cases h
          obtain ⟨hbad, hshort⟩ := ih htail
          refine ⟨?_, fun hnone => Nat.succ_lt_succ (hshort hnone)⟩
          rw [← hbad]
          simp [firstBad?, hword]

end Faults

section Reading
variable [Scalar α] [Numeral α]

/- An error of reading is the fault behind a sentence. -/
theorem fault_of_motionsFrom {spec : String} {position : Nat} {ws : List String} {e : Error}
    (h : (motionsFrom spec position ws : Except _ (List (Motion α))) = .error e) :
    ∃ done word rest, ws = done ++ word :: rest ∧ (∃ ms : List (Motion α), Sentence done ms) ∧
      Fault α spec (position + done.length) word rest e := by
  fun_induction motionsFrom (α := α) spec position ws with
  | case1 => cases h
  | case2 position word rest hop =>
    cases h
    refine ⟨[], word, rest, rfl, ⟨[], .nil⟩, .unknown fun k hk => ?_⟩
    obtain ⟨op, hop', -⟩ := mem_arities_iff.1 hk
    rw [hop] at hop'
    cases hop'
  | case3 position word rest op hop hoperands =>
    cases h
    obtain ⟨hgood, hshort⟩ := firstBad?_of_operands hoperands
    rw [List.take_of_length_le (Nat.le_of_lt (hshort rfl))] at hgood
    exact ⟨[], word, rest, rfl, ⟨[], .nil⟩,
      .missing (mem_arities_iff.2 ⟨op, hop, rfl⟩) (hshort rfl) hgood⟩
  | case4 position word rest op hop value hoperands =>
    cases h
    exact ⟨[], word, rest, rfl, ⟨[], .nil⟩,
      .invalid (mem_arities_iff.2 ⟨op, hop, rfl⟩) (firstBad?_of_operands hoperands).1⟩
  | case5 position word rest op hop xs hxs ih =>
    obtain ⟨args, rest, rfl, hlen, hargs⟩ := exists_of_operands hxs
    rw [← hlen, List.drop_left] at h ih
    cases hrest : motionsFrom (α := α) spec (position + 1 + args.length) rest with
    | ok ms =>
      rw [hrest] at h
      cases h
    | error e =>
      rw [hrest] at h
      cases h
      obtain ⟨done, bad, later, rfl, ⟨ms, hdone⟩, hfault⟩ := ih hrest
      have hmeant : Says word xs (op.motion (axes xs)) :=
        says_iff.2 ⟨op, hop, hargs.length_eq.symm.trans hlen, rfl⟩
      have hposition : position + 1 + args.length + done.length =
          position + (word :: (args ++ done)).length := by
        rw [List.length_cons, List.length_append]
        omega
      refine ⟨word :: (args ++ done), bad, later, ?_, ⟨_, .phrase hargs hmeant hdone⟩, ?_⟩
      · rw [List.cons_append, List.append_assoc]
      · rwa [hposition] at hfault

/- The first `t` words are a sentence, and no more of them are one. -/
structure LongestSentence (α : Type) [Scalar α] [Numeral α] (ws : List String) (t : Nat) : Prop where
  le_length : t ≤ ws.length
  sentence : ∃ ms : List (Motion α), Sentence (ws.take t) ms
  longest : ∀ t', t < t' → t' ≤ ws.length → ∀ ms : List (Motion α), ¬Sentence (ws.take t') ms

theorem LongestSentence.unique {ws : List String} {t t' : Nat} (h : LongestSentence α ws t)
    (h' : LongestSentence α ws t') : t = t' := by
  obtain ⟨ms, hms⟩ := h.sentence
  obtain ⟨ms', hms'⟩ := h'.sentence
  rcases Nat.lt_trichotomy t t' with hlt | heq | hlt
  · exact absurd hms' (h.longest t' hlt h'.le_length ms')
  · exact heq
  · exact absurd hms (h'.longest t hlt h.le_length ms)

/- A fault ends the longest sentence before it. -/
theorem longestSentence_of_fault {spec word : String} {position : Nat} {done rest : List String}
    {e : Error} (hdone : ∃ ms : List (Motion α), Sentence done ms)
    (hfault : Fault α spec position word rest e) :
    LongestSentence α (done ++ word :: rest) done.length := by
  refine ⟨?_, ?_, fun t' hlt _ ms' hsentence => ?_⟩
  · rw [List.length_append]
    exact Nat.le_add_right _ _
  · rwa [List.take_left]
  · obtain ⟨ms, hms⟩ := hdone
    obtain ⟨n, rfl⟩ := Nat.exists_eq_add_of_lt hlt
    rw [Nat.add_assoc, List.take_length_add_append, List.take_succ_cons] at hsentence
    obtain ⟨later, hlater⟩ := hms.of_append hsentence
    exact hfault.not_sentence (List.take_prefix n rest) later hlater

theorem motions_eq_error_iff {spec : String} {e : Error} :
    (motions spec : Except Error (List (Motion α))) = .error e ↔
      ∃ t word rest, LongestSentence α (Text.words spec) t ∧
        (Text.words spec).drop t = word :: rest ∧ Fault α spec t word rest e := by
  have hfault : ∀ e, (motions spec : Except Error (List (Motion α))) = .error e →
      ∃ t word rest, LongestSentence α (Text.words spec) t ∧
        (Text.words spec).drop t = word :: rest ∧ Fault α spec t word rest e := by
    intro e he
    obtain ⟨done, word, rest, hwords, hdone, hfault⟩ := fault_of_motionsFrom he
    rw [Nat.zero_add] at hfault
    rw [hwords]
    exact ⟨done.length, word, rest, longestSentence_of_fault hdone hfault, List.drop_left, hfault⟩
  refine ⟨hfault e, ?_⟩
  rintro ⟨t, word, rest, ht, hdrop, he⟩
  cases hread : (motions spec : Except Error (List (Motion α))) with
  | ok ms =>
    have hall : Sentence (Text.words spec) ms := motionsFrom_eq_ok_iff.1 hread
    have hlt : t < (Text.words spec).length := by
      have hlength := congrArg List.length hdrop
      rw [List.length_drop, List.length_cons] at hlength
      omega
    rw [← List.take_length (l := Text.words spec)] at hall
    exact absurd hall (ht.longest _ hlt (Nat.le_refl _) ms)
  | error e' =>
    obtain ⟨t', word', rest', ht', hdrop', he'⟩ := hfault e' hread
    obtain rfl := ht.unique ht'
    rw [hdrop, List.cons.injEq] at hdrop'
    obtain ⟨rfl, rfl⟩ := hdrop'
    rw [he.unique he']

/-! ### Specs one behind the other -/

/- The error where so many words stand before, in the whole spec. -/
def Error.behind (words : Nat) (spec : String) : Error → Error
  | .unknownOperator word position _ => .unknownOperator word (position + words) spec
  | .missingOperand operator _ => .missingOperand operator spec
  | .invalidOperand operator value _ => .invalidOperand operator value spec

theorem motionsFrom_behind (spec more : String) (words position : Nat) (ws : List String) :
    (motionsFrom spec (position + words) ws : Except Error (List (Motion α))) =
      (motionsFrom more position ws).mapError (Error.behind words spec) := by
  fun_induction motionsFrom (α := α) more position ws with
  | case1 =>
    rw [motionsFrom]
    rfl
  | case2 position word rest hop =>
    rw [motionsFrom]
    simp only [hop]
    rfl
  | case3 position word rest op hop hoperands =>
    rw [motionsFrom]
    simp only [hop, hoperands]
    rfl
  | case4 position word rest op hop value hoperands =>
    rw [motionsFrom]
    simp only [hop, hoperands]
    rfl
  | case5 position word rest op hop xs hxs ih =>
    have hposition : position + words + 1 + op.arity = position + 1 + op.arity + words := by omega
    rw [motionsFrom]
    simp only [hop, hxs]
    rw [hposition, ih, Fallible.mapError_map]

end Reading

/- Reading a spec gives what it says if it is a sentence, and otherwise the fault behind the longest
sentence that it begins with. Behind a sentence, another spec is read as it is read alone, its words
counted on. -/
theorem motions_language [Scalar α] [Numeral α] (spec : String) :
    (∀ ms : List (Motion α), motions spec = .ok ms ↔ Sentence (Text.words spec) ms) ∧
    (∀ e, (motions spec : Except Error (List (Motion α))) = .error e ↔
      ∃ t word rest, LongestSentence α (Text.words spec) t ∧
        (Text.words spec).drop t = word :: rest ∧ Fault α spec t word rest e) ∧
    ∀ (ms : List (Motion α)) (more : String), motions spec = .ok ms →
      motions (spec ++ " " ++ more) =
        match motions more with
        | .ok later => .ok (ms ++ later)
        | .error e => .error (e.behind (Text.words spec).length (spec ++ " " ++ more)) := by
  refine ⟨fun ms => motionsFrom_eq_ok_iff, fun e => motions_eq_error_iff, fun ms more hms => ?_⟩
  have hsentence : Sentence (Text.words spec) ms := motionsFrom_eq_ok_iff.1 hms
  rw [motions, Text.words_append, motionsFrom_append hsentence, motionsFrom_behind _ more]
  unfold motions
  cases motionsFrom (α := α) more 0 (Text.words more) with
  | ok later => rfl
  | error e => rfl

/- A phrase in order with a word behind it that is no operator. -/
theorem unknown_behind_phrase :
    (∃ x : Float, motions "tx 1" = .ok [.translate ⟨x, 0, 0⟩]) ∧
    (motions ("tx 1" ++ " " ++ "qq 2") : Except Error (List (Motion Float))) =
      .error (.unknownOperator "qq" 2 "tx 1 qq 2") := by
  obtain ⟨x, hx⟩ : ∃ x : Float, read? "1" = some x :=
    Option.isSome_iff_exists.1 (by decide +kernel)
  have hwords : Text.words "tx 1" = ["tx", "1"] := by decide
  have hlater : Text.words "qq 2" = ["qq", "2"] := by decide
  have hoperands : Numerals ["1"] [x] := .cons hx .nil
  have hsentence : Sentence ["tx", "1"] [.translate ⟨x, 0, 0⟩] := .phrase hoperands (.tx x) .nil
  have hphrase : motions "tx 1" = .ok [.translate ⟨x, 0, 0⟩] :=
    ((motions_language "tx 1").1 _).2 (hwords ▸ hsentence)
  have hfault : Fault Float "qq 2" 0 "qq" ["2"] (.unknownOperator "qq" 0 "qq 2") :=
    .unknown fun k => by simp [arities]
  have hrefused : (motions "qq 2" : Except Error (List (Motion Float))) =
      .error (.unknownOperator "qq" 0 "qq 2") := by
    refine ((motions_language "qq 2").2.1 _).2 ⟨0, "qq", ["2"], ?_, hlater, hfault⟩
    rw [hlater]
    exact longestSentence_of_fault ⟨[], .nil⟩ hfault
  refine ⟨⟨x, hphrase⟩, ?_⟩
  rw [(motions_language "tx 1").2.2 _ "qq 2" hphrase, hrefused, hwords]
  rfl

end ProceduralShapes.Spec
