import ChangeImpact.Proofs.Diff.Rebuild
import ChangeImpact.Proofs.Ordered

/-!
# The numbers of changed lines

Where the operations are in place and the draft is not emptied, the changed lines of a difference
are listed by their numbers in the draft: an added line by its own, and a removed line by that of
the line it was removed before. A draft that is emptied has no such line; its removed lines are
listed under the number of the empty hunk.
-/

namespace ChangeImpact.Diff

open Ordered

/-- The lines of all operations, in order: kept, removed and added. -/
def transcript (committed draft : String) : List HunkLine :=
  groupLines (lines committed) (lines draft) (operations committed draft)

/-- A changed line of a transcript has a number in the new text: one more than the number of the
new lines before it. -/
def Touches (ls : List HunkLine) (n : Nat) : Prop :=
  ∃ before l after, ls = before ++ l :: after ∧ l.kind ≠ .context ∧ n = (newSide before).length + 1

section Numbers

variable {l : HunkLine} {ls ls' : List HunkLine} {texts : List String} {n x : Nat}

theorem numbers_append :
    numbers n (ls ++ ls') = numbers n ls ++ numbers (n + (newSide ls).length) ls' := by
  induction ls generalizing n with
  | nil => rfl
  | cons l ls ih =>
    rw [List.cons_append, numbers, numbers, newSide_cons]
    cases h : l.kind with
    | context => simp only [ih, reduceCtorEq, if_false, List.length_cons]; congr 2; omega
    | add =>
      simp only [ih, reduceCtorEq, if_false, List.length_cons, List.cons_append]
      congr 3
      omega
    | remove => simp only [ih, if_true, List.cons_append]

theorem numbers_keptLines : numbers n (keptLines texts) = [] := by
  induction texts generalizing n with
  | nil => rfl
  | cons text texts ih => exact ih

/-- A member of a list, together with what stands before it, is the first one or comes after
that. -/
theorem exists_split_cons_iff {α : Type} {P : List α → α → Prop} {x : α} {xs : List α} :
    (∃ before y after, x :: xs = before ++ y :: after ∧ P before y) ↔
      P [] x ∨ ∃ before y after, xs = before ++ y :: after ∧ P (x :: before) y := by
  constructor
  · rintro ⟨before, y, after, h, hp⟩
    cases before with
    | nil =>
      obtain ⟨rfl, rfl⟩ := List.cons.inj h
      exact Or.inl hp
    | cons first before =>
      obtain ⟨rfl, rfl⟩ := List.cons.inj h
      exact Or.inr ⟨before, y, after, rfl, hp⟩
  · rintro (hp | ⟨before, y, after, rfl, hp⟩)
    · exact ⟨[], x, xs, rfl, hp⟩
    · exact ⟨x :: before, y, after, rfl, hp⟩

/-- A changed line has the number that it is reached with. -/
theorem mem_numbers : x ∈ numbers n ls ↔ ∃ before l after,
    ls = before ++ l :: after ∧ l.kind ≠ .context ∧ x = n + (newSide before).length := by
  induction ls generalizing n with
  | nil =>
    refine iff_of_false List.not_mem_nil ?_
    rintro ⟨before, l, after, h, -⟩
    exact List.cons_ne_nil _ _ (List.append_eq_nil_iff.mp h.symm).2
  | cons l ls ih =>
    rw [exists_split_cons_iff, numbers]
    simp only [newSide_cons]
    cases h : l.kind with
    | context =>
      rw [ih]
      simp only [ne_eq, not_true_eq_false, false_and, false_or, reduceCtorEq, if_false,
        List.length_cons, Nat.add_assoc, Nat.add_comm 1]
    | add =>
      rw [List.mem_cons, ih]
      simp only [ne_eq, reduceCtorEq, not_false_eq_true, true_and, if_false, List.length_cons,
        newSide_nil, List.length_nil, Nat.add_zero, Nat.add_assoc, Nat.add_comm 1]
    | remove =>
      rw [List.mem_cons, ih]
      simp only [ne_eq, reduceCtorEq, not_false_eq_true, true_and, if_true, newSide_nil,
        List.length_nil, Nat.add_zero]

end Numbers

section Groups

variable {a b : Array String} {placed : Prop} {gs : List (List Change)} {ls : List HunkLine}
  {p r : Nat × Nat} {x : Nat}

/-- The touched numbers of groups that have new lines are those of all lines. -/
theorem mem_touched (h : Grouped placed a b gs p r ls) (hplaced : placed) (hold : r.1 ≤ a.size)
    (hnew : r.2 ≤ b.size) (hne : ∀ g ∈ gs, newSide (groupLines a b g) ≠ []) :
    x ∈ gs.flatMap (fun g => (numberGroup a b g).touched) ↔ x ∈ numbers (p.2 + 1) ls := by
  induction h with
  | done => rw [numbers_keptLines, List.flatMap_nil]
  | @group g gs i j n q r ls hshared hg hpath hrest ih =>
    obtain ⟨hside, hne⟩ := List.forall_mem_cons.mp hne
    have hgap : (range a i n).length = n :=
      length_range (Nat.le_trans (le_of_stands hpath).1 (Nat.le_trans hrest.le.1 hold))
    have hq := add_length_newSide hpath (Nat.le_trans hrest.le.2 hnew)
    have hpos := List.length_pos_iff.mpr hside
    have hstart : groupStart g = j + n + 1 := by
      rw [groupStart_eq hpath hplaced hg]
      exact if_neg (by omega)
    rw [List.flatMap_cons, List.mem_append, ih hold hnew hne, (numberGroup_spec a b g).2,
      List.mem_reverse, hstart, numbers_append, numbers_keptLines, List.nil_append, newSide_map,
      if_neg (by decide), hgap, numbers_append, List.mem_append, ← hq, Nat.add_right_comm j 1,
      Nat.add_right_comm (j + n) 1]

end Groups

section Emptied

variable {committed : String}

/-- A text is emptied by one deletion at the start. -/
theorem operations_empty (h : committed ≠ "") :
    operations committed "" = [.replace 0 (lines committed).size 0 0] := by
  have hrows : (lines committed).size ≠ 0 := fun hsize =>
    h (lines_inj.mp (List.eq_nil_of_length_eq_zero hsize))
  have hcolumns : (lines "").size = 0 := by decide
  have hscript : script (lines committed) (lines "") =
      [⟨.delete, 0, 0, (lines committed).size⟩] := by
    have hprefix (i iEnd : Nat) : commonPrefix (lines committed) (lines "") i iEnd 0 0 = 0 := by
      rw [commonPrefix, if_neg fun h => absurd h.2.1 (Nat.lt_irrefl 0)]
    have hsuffix (i iEnd : Nat) : commonSuffix (lines committed) (lines "") i 0 iEnd 0 = 0 := by
      cases iEnd <;> rfl
    rw [script, solve]
    simp [hcolumns, hprefix, hsuffix, Box.shrink, Box.rows, Box.columns, replaceAll, keepRun, hrows]
  have hpass (e : Edit) (he : e.action = .delete) (n : Nat) (hn : n ≠ 0) :
      settlePass (lines committed) (lines "") .delete n [] [e] = [e] := by
    obtain ⟨n, rfl⟩ := Nat.exists_eq_succ_of_ne_zero hn
    rw [settlePass, if_pos he]
    cases n <;> rfl
  rw [operations, hscript, settle,
    hpass _ rfl _ (Nat.mul_ne_zero (Nat.succ_ne_zero _) (Nat.succ_ne_zero _))]
  dsimp only
  rw [settlePass_eq (List.forall_mem_singleton.mpr Action.noConfusion)]
  rfl

/-- The lines of a text that is emptied are all listed under the number of the empty hunk. -/
theorem changedLines_emptied (h : committed ≠ "") : (compare committed "").changedLines = [0] := by
  have hgroups : groups context (operations committed "") =
      [[.replace 0 (lines committed).size 0 0]] := by
    rw [operations_empty h]
    rfl
  have hlines : groupLines (lines committed) (lines "") [.replace 0 (lines committed).size 0 0] =
      (lines committed).toList.map (⟨.remove, ·⟩) := by
    rw [groupLines_cons, groupLines_nil, Change.lines, range_size, range_zero]
    simp only [List.map_nil, List.append_nil]
  have hzero : Enumerates [0] (· = 0) := ⟨List.pairwise_singleton _ _, fun _ => List.mem_singleton⟩
  have hlisted : (compare committed "").changedLines =
      ofList ((groups context (operations committed "")).flatMap fun g =>
        (numberGroup (lines committed) (lines "") g).touched) := rfl
  rw [hlisted, hgroups]
  refine Enumerates.eq (enumerates_ofList _) hzero fun x => ?_
  rw [List.flatMap_singleton, (numberGroup_spec _ _ _).2, List.mem_reverse, hlines, mem_numbers]
  constructor
  · rintro ⟨before, l, after, hsplit, -, rfl⟩
    have hnone := congrArg newSide hsplit
    rw [newSide_map, if_pos rfl, newSide_append] at hnone
    rw [(List.append_eq_nil_iff.mp hnone.symm).1]
    rfl
  · rintro rfl
    obtain ⟨line, rest, hline⟩ := List.exists_cons_of_ne_nil fun hnil => h (lines_inj.mp hnil)
    exact ⟨[], ⟨.remove, line⟩, _, by rw [hline]; rfl, HunkKind.noConfusion, rfl⟩

end Emptied

end ChangeImpact.Diff
