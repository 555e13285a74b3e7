import ProceduralShapes.Proofs.Text.Words

/-!
# Lines one below the other

Texts without a line feed, each of them ended by one, are the lines of the whole. A carriage return
may be lost at the end of a line, which makes no difference to its words.
-/

namespace ProceduralShapes.Text

/- A text as a line: a carriage return at its end counts as part of the end. -/
def asLine (s : String) : String := String.ofList (withoutReturn s.toList)

theorem lines_append {s : String} (hs : '\n' ∉ s.toList) (t : String) :
    lines (s ++ "\n" ++ t) = asLine s :: lines t := by
  have hlist : (s ++ "\n" ++ t).toList = s.toList ++ '\n' :: t.toList := by simp
  have hline : s.toList.splitOnP (· == '\n') = [s.toList] := by
    refine List.splitOnP_eq_singleton fun c hc => ?_
    exact beq_eq_false_iff_ne.2 fun h => hs (h ▸ hc)
  have hend : (s.toList ++ '\n' :: t.toList).splitOnP (· == '\n') =
      s.toList.splitOnP (· == '\n') ++ t.toList.splitOnP (· == '\n') :=
    List.splitOnP_append_cons _ _ rfl
  have hcut : (s ++ "\n" ++ t).toList.splitOn '\n' = s.toList :: t.toList.splitOn '\n' := by
    rw [hlist, List.splitOn, hend, hline]
    rfl
  have hrest : t.toList.splitOn '\n' ≠ [] := List.splitOn_ne_nil _ _
  simp only [lines, hcut, List.dropLast_cons_of_ne_nil hrest, List.getLast?_cons,
    List.getLast?_eq_some_getLast hrest]
  rfl

theorem lines_join {ss : List String} (h : ∀ s ∈ ss, '\n' ∉ s.toList) :
    lines (String.join (ss.map (· ++ "\n"))) = ss.map asLine := by
  induction ss with
  | nil => rfl
  | cons s ss ih =>
    have hrest := ih fun t ht => h t (List.mem_cons_of_mem _ ht)
    rw [List.map_cons, String.join_cons, lines_append (h s List.mem_cons_self), hrest]
    rfl

theorem words_asLine (s : String) : words (asLine s) = words s := by
  unfold asLine withoutReturn
  split
  · rename_i hlast
    obtain ⟨front, hfront⟩ := List.getLast?_eq_some_iff.1 hlast
    have hsplit : s = String.ofList front ++ String.singleton '\r' ++ "" := by
      rw [← String.toList_inj, hfront]
      simp
    have hwords : words s = words (String.ofList front) ++ words "" := by
      rw [hsplit]
      exact pieces_append (by decide) _ _
    have hempty : words "" = [] := pieces_empty
    rw [hwords, hempty, List.append_nil, hfront, List.dropLast_concat]
  · rw [String.ofList_toList]

end ProceduralShapes.Text
