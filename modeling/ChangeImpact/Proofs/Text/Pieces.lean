import ChangeImpact.Text.Pieces
import Mathlib.Data.List.Induction

/-!
# Splitting and joining

The pieces of a text with the separator between them are the text. None of them holds a
separator, and texts without separators are the pieces of what they are joined to.
-/

namespace ChangeImpact.Text

theorem splitBy_eq_splitOnP (p : Char → Bool) (cs : List Char) : splitBy p cs = cs.splitOnP p := by
  induction cs with
  | nil => rw [splitBy, List.splitOnP_nil]
  | cons c cs ih =>
    rw [splitBy, ih, List.splitOnP_cons_eq_if_modifyHead]
    split
    · rfl
    · obtain ⟨piece, pieces, hs⟩ := List.exists_cons_of_ne_nil (List.splitOnP_ne_nil p cs)
      rw [hs]
      rfl

variable {sep : Char} {s t piece : String} {parts : List String}

theorem pieces_eq_splitOn (sep : Char) (s : String) :
    pieces sep s = (s.toList.splitOn sep).map String.ofList := by
  rw [pieces, splitBy_eq_splitOnP, List.splitOn_eq_splitOnP]

theorem map_toList_pieces (sep : Char) (s : String) :
    (pieces sep s).map String.toList = s.toList.splitOn sep := by
  rw [pieces_eq_splitOn, List.map_map]
  exact (List.map_congr_left fun _ _ => String.toList_ofList).trans (List.map_id _)

theorem pieces_ne_nil (sep : Char) (s : String) : pieces sep s ≠ [] := by
  rw [pieces_eq_splitOn]
  exact mt List.map_eq_nil_iff.mp (List.splitOn_ne_nil sep s.toList)

/-- The pieces with the separator between them are the text that was split. -/
theorem intercalate_pieces (sep : Char) (s : String) :
    (String.singleton sep).intercalate (pieces sep s) = s := by
  rw [← String.toList_inj, String.toList_intercalate, map_toList_pieces, String.toList_singleton,
    List.intercalate_splitOn]

theorem pieces_inj (h : pieces sep s = pieces sep t) : s = t := by
  rw [← intercalate_pieces sep s, h, intercalate_pieces]

/-- Texts with a separator between them are split apart. -/
theorem pieces_append (sep : Char) (s t : String) :
    pieces sep (s ++ String.singleton sep ++ t) = pieces sep s ++ pieces sep t := by
  rw [pieces_eq_splitOn, pieces_eq_splitOn, pieces_eq_splitOn, String.toList_append,
    String.toList_append, String.toList_singleton, List.append_assoc, List.singleton_append,
    List.splitOn_append_cons_self, List.map_append]

/-- Texts without separators are the pieces of what they are joined to. -/
theorem pieces_intercalate (hne : parts ≠ []) (h : ∀ part ∈ parts, sep ∉ part.toList) :
    pieces sep ((String.singleton sep).intercalate parts) = parts := by
  have hparts : ∀ cs ∈ parts.map String.toList, sep ∉ cs := by
    intro cs hcs
    obtain ⟨part, hpart, rfl⟩ := List.mem_map.mp hcs
    exact h part hpart
  rw [pieces_eq_splitOn, String.toList_intercalate, String.toList_singleton,
    List.splitOn_intercalate sep hparts (mt List.map_eq_nil_iff.mp hne), List.map_map]
  exact (List.map_congr_left fun _ _ => String.ofList_toList).trans (List.map_id _)

/-- A text without separators is one piece. -/
theorem pieces_of_notMem (h : sep ∉ s.toList) : pieces sep s = [s] := by
  rw [pieces_eq_splitOn, List.splitOn_eq_singleton h, List.map_singleton, String.ofList_toList]

private theorem notMem_of_mem_splitOn {sep : Char} {cs part : List Char}
    (h : part ∈ cs.splitOn sep) : sep ∉ part := by
  induction cs generalizing part with
  | nil =>
    rw [List.splitOn_nil, List.mem_singleton] at h
    exact h ▸ List.not_mem_nil
  | cons c cs ih =>
    obtain ⟨first, rest, hs⟩ := List.exists_cons_of_ne_nil (List.splitOn_ne_nil sep cs)
    rw [List.splitOn_cons_eq_if_modifyHead, hs] at h
    rw [hs] at ih
    split at h
    · rcases List.mem_cons.mp h with rfl | h
      · exact List.not_mem_nil
      · exact ih h
    · next hc =>
      rcases List.mem_cons.mp h with rfl | h
      · rw [List.mem_cons, not_or]
        exact ⟨fun he => hc (beq_iff_eq.mpr he.symm), ih (List.mem_cons_self ..)⟩
      · exact ih (List.mem_cons_of_mem _ h)

/-- No piece holds a separator. -/
theorem notMem_of_mem_pieces (h : piece ∈ pieces sep s) : sep ∉ piece.toList := by
  rw [pieces_eq_splitOn] at h
  obtain ⟨part, hpart, rfl⟩ := List.mem_map.mp h
  rw [String.toList_ofList]
  exact notMem_of_mem_splitOn hpart

/-- A text without separators goes on with the last piece. -/
theorem exists_pieces_append (s : String) (h : sep ∉ t.toList) :
    ∃ init last, pieces sep s = init ++ [last] ∧ pieces sep (s ++ t) = init ++ [last ++ t] := by
  obtain ⟨init, last, hs⟩ : ∃ init last, pieces sep s = init ++ [last] :=
    ⟨_, _, (List.dropLast_concat_getLast (pieces_ne_nil sep s)).symm⟩
  have hpieces : ∀ piece ∈ init ++ [last], sep ∉ piece.toList :=
    fun piece hpiece => notMem_of_mem_pieces (hs ▸ hpiece)
  refine ⟨init, last, hs, ?_⟩
  have hjoin : s ++ t = (String.singleton sep).intercalate (init ++ [last ++ t]) := by
    rw [← intercalate_pieces sep s, hs]
    cases init with
    | nil => rw [List.nil_append, List.nil_append, String.intercalate_singleton,
        String.intercalate_singleton]
    | cons first init =>
      rw [String.intercalate_append_of_ne_nil (List.cons_ne_nil _ _) (List.cons_ne_nil _ _),
        String.intercalate_append_of_ne_nil (List.cons_ne_nil _ _) (List.cons_ne_nil _ _),
        String.intercalate_singleton, String.intercalate_singleton, String.append_assoc]
  rw [hjoin, pieces_intercalate (by simp)]
  intro piece hpiece
  rcases List.mem_append.mp hpiece with hpiece | hpiece
  · exact hpieces piece (List.mem_append_left _ hpiece)
  · rw [List.mem_singleton.mp hpiece, String.toList_append, List.mem_append, not_or]
    exact ⟨hpieces last (List.mem_append_right _ (List.mem_singleton_self _)), h⟩

/-! ## Words -/

section Words

variable {p : Char → Bool} {c : Char} {w : String}

theorem mem_of_mem_splitBy {cs piece : List Char} (h : piece ∈ splitBy p cs) (hc : c ∈ piece) :
    c ∈ cs := by
  induction cs generalizing piece with
  | nil =>
    rw [List.mem_singleton.mp h] at hc
    exact hc
  | cons d cs ih =>
    rw [splitBy] at h
    split at h
    · rcases List.mem_cons.mp h with rfl | h
      · cases hc
      · exact List.mem_cons_of_mem _ (ih h hc)
    · split at h
      · rw [List.mem_singleton.mp h] at hc
        rw [List.mem_singleton.mp hc]
        exact List.mem_cons_self
      · next first rest hs =>
        rcases List.mem_cons.mp h with rfl | h
        · rcases List.mem_cons.mp hc with rfl | hc
          · exact List.mem_cons_self
          · exact List.mem_cons_of_mem _ (ih (hs ▸ List.mem_cons_self) hc)
        · exact List.mem_cons_of_mem _ (ih (hs ▸ List.mem_cons_of_mem _ h) hc)

theorem mem_words_iff : w ∈ words s ↔ w ≠ "" ∧ w.toList ∈ splitBy isBlank s.toList := by
  rw [words, List.mem_map]
  constructor
  · rintro ⟨piece, hpiece, rfl⟩
    rw [List.mem_filter, Bool.not_eq_true', List.isEmpty_eq_false_iff] at hpiece
    rw [← String.toList_inj.ne, String.toList_ofList]
    exact ⟨hpiece.2, hpiece.1⟩
  · rintro ⟨hne, hpiece⟩
    refine ⟨w.toList, List.mem_filter.mpr ⟨hpiece, ?_⟩, String.ofList_toList⟩
    rw [Bool.not_eq_true', List.isEmpty_eq_false_iff]
    exact String.toList_inj.ne.mpr hne

theorem mem_of_mem_trimBy (h : c ∈ (trimBy p s).toList) : c ∈ s.toList := by
  rw [trimBy, trimEndBy, trimStartBy, String.toList_ofList, String.toList_ofList,
    List.mem_reverse] at h
  have hback := (List.dropWhile_sublist p).subset h
  exact (List.dropWhile_sublist p).subset (List.mem_reverse.mp hback)

theorem splitFirst_eq_none_iff {cs : List Char} : splitFirst sep cs = none ↔ sep ∉ cs := by
  induction cs with
  | nil => simp [splitFirst]
  | cons d cs ih =>
    rw [splitFirst]
    split
    · next h => simp [h]
    · next h => rw [Option.map_eq_none_iff, ih, List.mem_cons, not_or, and_iff_right (Ne.symm h)]

theorem intercalate_eq_empty_iff {parts : List String} (h : ∀ part ∈ parts, part ≠ "") :
    s.intercalate parts = "" ↔ parts = [] := by
  cases parts with
  | nil => exact iff_of_true String.intercalate_nil rfl
  | cons part parts =>
    refine iff_of_false (fun he => h part List.mem_cons_self ?_) (List.cons_ne_nil _ _)
    cases parts with
    | nil => rwa [String.intercalate_singleton] at he
    | cons next parts =>
      rw [String.intercalate_cons_of_ne_nil (List.cons_ne_nil _ _), String.append_assoc] at he
      exact (String.append_eq_empty_iff.mp he).1

theorem mem_intercalate {parts : List String} (h : c ∈ (s.intercalate parts).toList) :
    c ∈ s.toList ∨ ∃ part ∈ parts, c ∈ part.toList := by
  induction parts with
  | nil => simp at h
  | cons part parts ih =>
    cases parts with
    | nil =>
      rw [String.intercalate_singleton] at h
      exact .inr ⟨part, List.mem_cons_self, h⟩
    | cons next parts =>
      rw [String.intercalate_cons_of_ne_nil (List.cons_ne_nil _ _), String.toList_append,
        String.toList_append, List.mem_append, List.mem_append, or_assoc] at h
      rcases h with h | h | h
      · exact .inr ⟨part, List.mem_cons_self, h⟩
      · exact .inl h
      · exact (ih h).imp_right fun ⟨p, hp, hc⟩ => ⟨p, List.mem_cons_of_mem _ hp, hc⟩

end Words

/-! ## Lines -/

theorem firstLine_prefix (s : String) : (firstLine s).toList <+: s.toList := by
  rw [firstLine]
  split
  · rw [String.toList_ofList]
    exact (List.dropLast_prefix _).trans (List.takeWhile_prefix _)
  · rw [String.toList_ofList]
    exact List.takeWhile_prefix _

/-- What stands at the start of a text on one line is at the start of its first line. -/
theorem prefix_firstLine {head rest : String} (hfeed : '\n' ∉ head.toList)
    (hreturn : '\r' ∉ head.toList) : head.toList <+: (firstLine (head ++ rest)).toList := by
  have hinside : ∀ c ∈ head.toList, decide (c ≠ '\n') = true := fun c hc =>
    decide_eq_true fun he : c = '\n' => hfeed (he ▸ hc)
  have hline : (head ++ rest).toList.takeWhile (· ≠ '\n') =
      head.toList ++ rest.toList.takeWhile (· ≠ '\n') := by
    rw [String.toList_append, List.takeWhile_append_of_pos hinside]
  rw [firstLine, hline]
  split
  · next hend =>
    -- The line end is cut off behind the head, which has none.
    have hrest : rest.toList.takeWhile (· ≠ '\n') ≠ [] := by
      intro hnil
      rw [hnil, List.append_nil] at hend
      exact hreturn (List.mem_of_getLast? hend.2)
    rw [String.toList_ofList, List.dropLast_append_of_ne_nil hrest]
    exact List.prefix_append ..
  · rw [String.toList_ofList]
    exact List.prefix_append ..

end ChangeImpact.Text
