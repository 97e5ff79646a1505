import ChangeImpact.Diff.Hunk

/-!
# Lines as they are split and shown

Splitting a text loses nothing, and each line ends where it has to. What a hunk shows of its
lines is read back: the mark in front of a line gives its kind, and a note below it says that
its own end is missing.
-/

namespace ChangeImpact.Diff

/-! ## Splitting -/

/-- Whether a character ends a line. -/
def IsBreak (c : Char) : Prop := c = '\n' ∨ c = '\r'

instance : DecidablePred IsBreak := fun c => inferInstanceAs (Decidable (c = '\n' ∨ c = '\r'))

/-- What a line ends with. -/
inductive IsEnding : List Char → Prop where
  | feed : IsEnding ['\n']
  | carriage : IsEnding ['\r']
  | both : IsEnding ['\r', '\n']

/-- A line: characters that end no line, and an end or none at the end of the text. -/
inductive IsLine : List Char → Prop where
  | ended {body ending : List Char} (plain : ∀ c ∈ body, ¬IsBreak c) (ends : IsEnding ending) :
      IsLine (body ++ ending)
  | unended {body : List Char} (plain : ∀ c ∈ body, ¬IsBreak c) (ne_nil : body ≠ []) : IsLine body

section Splitting

variable {c : Char} {cs line body ending rest : List Char}

theorem isLine_of_isEnding (h : IsEnding ending) : IsLine ending :=
  have hplain : ∀ c ∈ ([] : List Char), ¬IsBreak c := fun _ h => nomatch h
  IsLine.ended hplain h

/-- One more character in front of a line. -/
theorem IsLine.cons (h : IsLine line) (hc : ¬IsBreak c) : IsLine (c :: line) := by
  have hplain {body : List Char} (h : ∀ d ∈ body, ¬IsBreak d) : ∀ d ∈ c :: body, ¬IsBreak d :=
    List.forall_mem_cons.mpr ⟨hc, h⟩
  cases h with
  | ended h hends => exact .ended (hplain h) hends
  | unended h _ => exact .unended (hplain h) (List.cons_ne_nil _ _)

/-- Splitting a text loses nothing. -/
theorem flatten_splitLines (cs : List Char) : (splitLines cs).flatten = cs := by
  fun_induction splitLines cs with
  | case1 => rfl
  | case2 cs ih => rw [List.flatten_cons, ih]; rfl
  | case3 c cs hcs hc ih => rw [List.flatten_cons, ih]; rfl
  | case4 c cs hcs hc hnil ih =>
    rw [hnil] at ih
    rw [← ih]
    rfl
  | case5 c cs hcs hc line lines hlines ih =>
    rw [hlines] at ih
    rw [← ih]
    rfl

/-- A text splits into lines. -/
theorem isLine_of_mem_splitLines (h : line ∈ splitLines cs) : IsLine line := by
  fun_induction splitLines cs generalizing line with
  | case1 => cases h
  | case2 cs ih =>
    obtain rfl | h := List.mem_cons.mp h
    · exact isLine_of_isEnding .both
    · exact ih h
  | case3 c cs hcs hc ih =>
    obtain rfl | h := List.mem_cons.mp h
    · obtain rfl | rfl := hc
      · exact isLine_of_isEnding .feed
      · exact isLine_of_isEnding .carriage
    · exact ih h
  | case4 c cs hcs hc hnil ih =>
    rw [List.mem_singleton.mp h]
    exact .unended (List.forall_mem_singleton.mpr hc) (List.cons_ne_nil _ _)
  | case5 c cs hcs hc line' lines hlines ih =>
    rw [hlines] at ih
    obtain rfl | h := List.mem_cons.mp h
    · exact (ih (List.mem_cons_self ..)).cons hc
    · exact ih (List.mem_cons_of_mem _ h)

/-- An ended line splits off from the text after it, unless the two make one line end. -/
theorem splitLines_ended (body : List Char) (hplain : ∀ c ∈ body, ¬IsBreak c)
    (hends : IsEnding ending) (hrest : rest.head? ≠ some '\n') :
    splitLines (body ++ ending ++ rest) = (body ++ ending) :: splitLines rest := by
  induction body with
  | nil =>
    cases hends with
    | feed => simp [splitLines]
    | carriage =>
      cases rest with
      | nil => simp [splitLines]
      | cons c rest =>
        have hc : c ≠ '\n' := fun h => hrest (congrArg some h)
        simp [splitLines, hc]
    | both => simp [splitLines]
  | cons c body ih =>
    obtain ⟨hc, hplain⟩ := List.forall_mem_cons.mp hplain
    have hr : c ≠ '\r' := fun h => hc (Or.inr h)
    rw [List.cons_append, List.cons_append, splitLines,
      if_neg (show ¬(c = '\n' ∨ c = '\r') from hc), ih hplain]
    exact fun _ h _ => hr h

end Splitting

/-! ## Lines of a text -/

section Texts

variable {s t line : String}

theorem toList_lines : (lines s).toList = (splitLines s.toList).map String.ofList := rfl

/-- A text is its lines one after the other. -/
theorem join_lines : String.join (lines s).toList = s := by
  refine String.toList_inj.mp ?_
  have hchars (cs : List Char) : (String.ofList cs).toList = cs := String.toList_ofList
  rw [String.toList_join, toList_lines, List.flatMap_map]
  simp only [hchars, List.flatMap_id', flatten_splitLines]

/-- Texts with the same lines are equal. -/
theorem lines_inj : (lines s).toList = (lines t).toList ↔ s = t := by
  refine ⟨fun h => ?_, fun h => h ▸ rfl⟩
  rw [← join_lines (s := s), h, join_lines]

theorem isLine_of_mem_lines (h : line ∈ (lines s).toList) : IsLine line.toList := by
  rw [toList_lines] at h
  obtain ⟨cs, hcs, rfl⟩ := List.mem_map.mp h
  rw [String.toList_ofList]
  exact isLine_of_mem_splitLines hcs

end Texts

/-! ## Reading a hunk -/

/-- The kind that a mark stands for. -/
def kindOf (mark : Char) : HunkKind :=
  if mark = '+' then .add else if mark = '-' then .remove else .context

/-- The lines that are shown: each without its mark, and without the end that a note below it
takes back. -/
def readLines : List (List Char) → List HunkLine
  | (mark :: text) :: ('\\' :: _) :: rest =>
    ⟨kindOf mark, String.ofList text.dropLast⟩ :: readLines rest
  | (mark :: text) :: rest => ⟨kindOf mark, String.ofList text⟩ :: readLines rest
  | _ => []

/-- The lines that a hunk shows. -/
def Hunk.shown (h : Hunk) : List HunkLine := readLines (splitLines h.content.toList)

section Reading

variable {l : HunkLine} {ls : List HunkLine} {body ending : List Char}

/-- The mark of a kind is one character, which is neither a line end nor the start of a note. -/
theorem exists_mark (k : HunkKind) :
    ∃ m, k.mark.toList = [m] ∧ kindOf m = k ∧ ¬IsBreak m ∧ m ≠ '\\' := by
  cases k with
  | context => exact ⟨' ', rfl, by decide⟩
  | add => exact ⟨'+', rfl, by decide⟩
  | remove => exact ⟨'-', rfl, by decide⟩

/-- An ended line is shown after its mark. -/
theorem toList_render_ended (hends : IsEnding ending) (h : l.text.toList = body ++ ending) :
    l.render.toList = l.kind.mark.toList ++ (body ++ ending) := by
  have hterminated : isUnterminated l.text = false := by
    rw [isUnterminated, Text.endsWith, Text.endsWith, h, Bool.not_eq_false', Bool.or_eq_true,
      List.isSuffixOf_iff_suffix, List.isSuffixOf_iff_suffix]
    cases hends with
    | feed => exact Or.inl (List.suffix_append ..)
    | carriage => exact Or.inr (List.suffix_append ..)
    | both => exact Or.inl ⟨body ++ ['\r'], by rw [List.append_assoc]; rfl⟩
  rw [HunkLine.render, hterminated, String.toList_append, String.toList_append, h]
  exact List.append_nil _

/-- A line without an end is shown after its mark and before a note. -/
theorem toList_render_unended (hplain : ∀ c ∈ l.text.toList, ¬IsBreak c) :
    l.render.toList = l.kind.mark.toList ++ l.text.toList ++ '\n' ::
      "\\ No newline at end of file\n".toList := by
  have hunterminated : isUnterminated l.text = true := by
    rw [isUnterminated, Text.endsWith, Text.endsWith, Bool.not_eq_true', Bool.or_eq_false_iff]
    have hnot (c : Char) (hc : IsBreak c) : [c].isSuffixOf l.text.toList = false := by
      refine Bool.eq_false_iff.mpr fun h => ?_
      have hmem := (List.isSuffixOf_iff_suffix.mp h).mem (List.mem_singleton_self c)
      exact hplain c hmem hc
    exact ⟨hnot '\n' (Or.inl rfl), hnot '\r' (Or.inr rfl)⟩
  rw [HunkLine.render, hunterminated, String.toList_append, String.toList_append]
  rfl

/-- What is shown of lines starts with a mark. -/
theorem of_head?_render {c : Char} (h : (String.join (ls.map (·.render))).toList.head? = some c) :
    ¬IsBreak c ∧ c ≠ '\\' := by
  cases ls with
  | nil => cases h
  | cons l ls =>
    obtain ⟨m, hm, -, hmark⟩ := exists_mark l.kind
    rw [List.map_cons, String.join_cons, String.toList_append, HunkLine.render,
      String.toList_append, String.toList_append, hm] at h
    cases h
    exact hmark

/-- A line without a note below it is read as it is. -/
theorem readLines_cons {m : Char} {text rest : List Char}
    (hrest : ∀ c, rest.head? = some c → c ≠ '\\') :
    readLines ((m :: text) :: splitLines rest) =
      ⟨kindOf m, String.ofList text⟩ :: readLines (splitLines rest) := by
  have hflat := flatten_splitLines rest
  match splitLines rest, hflat with
  | [], _ => simp [readLines]
  | [] :: _, _ => simp [readLines]
  | (c :: _) :: _, hflat =>
    have hc : c ≠ '\\' := hrest c (by rw [← hflat]; rfl)
    simp [readLines, hc]

/-- The note below an unterminated line is one line. -/
theorem exists_note : ∃ note, "\\ No newline at end of file\n".toList = '\\' :: (note ++ ['\n']) ∧
    ∀ c ∈ note, ¬IsBreak c := by
  have hplain : (" No newline at end of file".toList.all fun c => !decide (IsBreak c)) = true := by
    decide
  exact ⟨_, rfl, fun c hc => by simpa using List.all_eq_true.mp hplain c hc⟩

/-- What is shown of lines is read back. -/
theorem readLines_render (h : ∀ l ∈ ls, IsLine l.text.toList) :
    readLines (splitLines (String.join (ls.map (·.render))).toList) = ls := by
  induction ls with
  | nil => rfl
  | cons l ls ih =>
    obtain ⟨hl, hls⟩ := List.forall_mem_cons.mp h
    obtain ⟨m, hm, hkind, hbreak, -⟩ := exists_mark l.kind
    have hrest (c : Char) := @of_head?_render ls c
    have ih := ih hls
    rw [List.map_cons, String.join_cons, String.toList_append]
    generalize (String.join (ls.map (·.render))).toList = rest at hrest ih ⊢
    have hfeed : rest.head? ≠ some '\n' := fun h => (hrest _ h).1 (Or.inl rfl)
    generalize htext : l.text.toList = text at hl
    have hofList : String.ofList text = l.text := by rw [← htext, String.ofList_toList]
    cases hl with
    | @ended body ending hplain hends =>
      have hsplit := splitLines_ended (m :: body)
        (List.forall_mem_cons.mpr ⟨hbreak, hplain⟩) hends hfeed
      rw [toList_render_ended hends htext, hm]
      refine (congrArg readLines hsplit).trans ?_
      rw [List.cons_append, readLines_cons fun c hc => (hrest c hc).2, ih, hkind, hofList]
    | unended hplain =>
      obtain ⟨note, hnote, hplainNote⟩ := exists_note
      have hafter := splitLines_ended ('\\' :: note)
        (List.forall_mem_cons.mpr ⟨by decide, hplainNote⟩) .feed hfeed
      have hnoteFeed : ('\\' :: note ++ ['\n'] ++ rest).head? ≠ some '\n' :=
        fun h => absurd (Option.some.inj h) (by decide)
      have hsplit := splitLines_ended (m :: text)
        (List.forall_mem_cons.mpr ⟨hbreak, hplain⟩) .feed hnoteFeed
      rw [toList_render_unended (htext ▸ hplain), hm, htext, hnote]
      rw [hafter] at hsplit
      have hall : [m] ++ text ++ '\n' :: '\\' :: (note ++ ['\n']) ++ rest =
          m :: text ++ ['\n'] ++ ('\\' :: note ++ ['\n'] ++ rest) := by
        simp only [List.append_assoc, List.cons_append, List.nil_append]
      rw [hall, hsplit, List.cons_append, List.cons_append, readLines, List.dropLast_concat, ih,
        hkind, hofList]

/-- The lines that a hunk shows are those of its changes. -/
theorem shown_hunkOf {a b : Array String} {g : List Change}
    (h : ∀ l ∈ groupLines a b g, IsLine l.text.toList) :
    (hunkOf a b g).shown = groupLines a b g :=
  readLines_render h

end Reading

end ChangeImpact.Diff
