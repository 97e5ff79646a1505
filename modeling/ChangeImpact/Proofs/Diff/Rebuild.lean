import ChangeImpact.Proofs.Diff.Group
import ChangeImpact.Proofs.Diff.Lines
import ChangeImpact.Proofs.Diff.Settle

/-!
# A difference rebuilds the draft

The hunks of a difference lie one after the other over both texts, and what lies between them is
the same in both. So the blocks of removed and added lines, put in place of each other, make the
draft out of the committed text. The line numbers of the hunks rest on the places that the
operations carry in the new list; where these follow each other, the numbers are right as well.
-/

namespace ChangeImpact.Diff

/-- The operations that turn a committed text into a draft of it. -/
def operations (committed draft : String) : List Change :=
  changes (settle (lines committed) (lines draft) (script (lines committed) (lines draft)))

theorem compare_eq (committed draft : String) :
    compare committed draft =
      ofGroups (lines committed) (lines draft) (groups context (operations committed draft)) := rfl

/-- The operations lead through both texts. -/
theorem operations_stands (committed draft : String) :
    Path (Change.Stands (InPlace 0 (operations committed draft)) (lines committed) (lines draft))
      (operations committed draft) (0, 0) ((lines committed).size, (lines draft).size) :=
  stands_of_runs (changes_runs (settle_runs script_runs)) id

/-! ## Numbering -/

/-- The numbers of the changed lines, where `n` is the number of the next new line: a removed line
has the number of the new line that it was removed before. -/
def numbers : Nat → List HunkLine → List Nat
  | _, [] => []
  | n, l :: ls =>
    match l.kind with
    | .context => numbers (n + 1) ls
    | .add => n :: numbers (n + 1) ls
    | .remove => n :: numbers n ls

section Numbering

variable {l : HunkLine} {ls ls' : List HunkLine} {n m : Nat} {x : Numbering}

theorem newSide_cons :
    newSide (l :: ls) = if l.kind = .remove then newSide ls else l.text :: newSide ls := by
  by_cases h : l.kind = .remove <;> simp [newSide, without, h]

/-- Numbering some lines goes on by the new ones among them. -/
theorem foldl_add (ls : List HunkLine) (hstop : x.stop = x.next) :
    (ls.foldl Numbering.add x).next = x.next + (newSide ls).length ∧
      (ls.foldl Numbering.add x).stop = x.next + (newSide ls).length ∧
      (ls.foldl Numbering.add x).touched = (numbers x.next ls).reverse ++ x.touched := by
  induction ls generalizing x with
  | nil => exact ⟨rfl, hstop, rfl⟩
  | cons l ls ih =>
    have hnext : (x.add l).stop = (x.add l).next := by
      cases h : l.kind <;> simp [Numbering.add, h, hstop]
    obtain ⟨hlast, hend, htouched⟩ := ih hnext
    rw [List.foldl_cons, hlast, hend, htouched, newSide_cons, numbers]
    cases h : l.kind <;> simp [Numbering.add, h] <;> omega

/-- The changed lines of a group are numbered from its start on. -/
theorem numberGroup_spec (a b : Array String) (g : List Change) :
    (numberGroup a b g).stop = groupStart g + (newSide (groupLines a b g)).length ∧
      (numberGroup a b g).touched = (numbers (groupStart g) (groupLines a b g)).reverse := by
  obtain ⟨-, hstop, htouched⟩ := foldl_add (groupLines a b g)
    (x := ⟨groupStart g, groupStart g, .context, []⟩) rfl
  exact ⟨hstop, htouched.trans (List.append_nil _)⟩

end Numbering

section Starting

variable {a b : Array String} {placed : Prop} {g : List Change} {p q : Nat × Nat}

/-- The last change of a path ends where the path does. -/
theorem newEnd_getLast (h : Path (Change.Stands placed a b) g p q) (hplaced : placed)
    {c : Change} (hc : g.getLast? = some c) : c.newEnd = q.2 := by
  induction h with
  | nil => cases hc
  | cons hstep hrest ih =>
    cases hrest with
    | nil =>
      cases hc
      exact hstep.newEnd hplaced
    | cons => exact ih (by rwa [List.getLast?_cons_cons] at hc)

/-- A group that stands in its place starts there: at the number of its first new line, or of
the line before it when it has no new lines. -/
theorem groupStart_eq (h : Path (Change.Stands placed a b) g p q) (hplaced : placed)
    (hne : g ≠ []) : groupStart g = if q.2 = p.2 then p.2 else p.2 + 1 := by
  obtain ⟨c, cs, rfl⟩ := List.exists_cons_of_ne_nil hne
  obtain ⟨m, hfirst, -⟩ := path_cons.mp h
  obtain ⟨d, hd⟩ : ∃ d, (c :: cs).getLast? = some d := ⟨_, List.getLast?_eq_some_getLast hne⟩
  rw [groupStart, List.head?_cons, hd]
  dsimp only
  rw [newEnd_getLast h hplaced hd, hfirst.2 hplaced]

end Starting

/-! ## Hunks over both texts -/

/-- Hunks lie one after the other over the lines of both texts, `n` new lines after the start of
the new text. What lies before, between and after them is the same in both. Where the operations
are in place, a hunk with new lines starts at the number of the first of them. -/
inductive Tiles (placed : Prop) : Nat → List Hunk → List String → List String → Prop where
  | done {n : Nat} {rest : List String} : Tiles placed n [] rest rest
  | hunk {n : Nat} {gap old new : List String} {h : Hunk} {hs : List Hunk}
      (starts : placed → h.startLine =
        if newSide h.shown = [] then n + gap.length else n + gap.length + 1)
      (ends : h.endLine = h.startLine + (newSide h.shown).length)
      (rest : Tiles placed (n + gap.length + (newSide h.shown).length) hs old new) :
      Tiles placed n (h :: hs) (gap ++ (oldSide h.shown ++ old)) (gap ++ (newSide h.shown ++ new))

section Tiling

variable {a b : Array String} {placed : Prop} {cs g : List Change} {gs : List (List Change)}
  {ls : List HunkLine} {p q r : Nat × Nat}

/-- The lines of a group come from both lists. -/
theorem isLine_of_mem_groupLines (ha : ∀ line ∈ a.toList, IsLine line.toList)
    (hb : ∀ line ∈ b.toList, IsLine line.toList) :
    ∀ l ∈ groupLines a b g, IsLine l.text.toList := by
  have hrange {xs : Array String} {i n : Nat} {kind : HunkKind}
      (hxs : ∀ line ∈ xs.toList, IsLine line.toList) :
      ∀ l ∈ (range xs i n).map (⟨kind, ·⟩ : String → HunkLine), IsLine l.text.toList := by
    intro l hl
    obtain ⟨line, hline, rfl⟩ := List.mem_map.mp hl
    rw [range_eq] at hline
    exact hxs line (List.mem_of_mem_drop (List.mem_of_mem_take hline))
  intro l hl
  obtain ⟨c, -, hl⟩ := List.mem_flatMap.mp hl
  cases c with
  | keep => exact hrange ha l hl
  | replace =>
    rcases List.mem_append.mp hl with hl | hl
    · exact hrange ha l hl
    · exact hrange hb l hl

/-- The hunks of groups lie over both lists. -/
theorem tiles_of_grouped (ha : ∀ line ∈ a.toList, IsLine line.toList)
    (hb : ∀ line ∈ b.toList, IsLine line.toList) (h : Grouped placed a b gs p r ls)
    (hold : r.1 ≤ a.size) (hnew : r.2 ≤ b.size) :
    Tiles placed p.2 (gs.map (hunkOf a b)) (oldSide ls) (newSide ls) := by
  induction h with
  | @done i j n hshared =>
    rw [oldSide_map, newSide_map, if_neg (by decide), if_neg (by decide)]
    exact .done
  | @group g gs i j n q r ls hshared hne hpath hrest ih =>
    have hgap : (range a i n).length = n :=
      length_range (Nat.le_trans (le_of_stands hpath).1 (Nat.le_trans hrest.le.1 hold))
    have hq := add_length_newSide hpath (Nat.le_trans hrest.le.2 hnew)
    have hshown : (hunkOf a b g).shown = groupLines a b g :=
      shown_hunkOf (isLine_of_mem_groupLines ha hb)
    rw [oldSide_append, newSide_append, oldSide_append, newSide_append, oldSide_map, newSide_map,
      if_neg (by decide), if_neg (by decide), List.map_cons, ← hshown]
    refine .hunk (fun hplaced => ?_) ?_ ?_
    · rw [hshown, hgap]
      refine (groupStart_eq hpath hplaced hne).trans ?_
      have hiff : newSide (groupLines a b g) = [] ↔ q.2 = j + n := by
        rw [← List.length_eq_zero_iff, ← hq]
        omega
      simp only [hiff]
    · rw [hshown]
      exact (numberGroup_spec a b g).1
    · rw [hshown, hgap]
      exact hq ▸ ih hold hnew

end Tiling

/-- The old lines with the block of each hunk replaced by its new lines, where `n` new lines are
made already. -/
def patch : Nat → List Hunk → List String → List String
  | _, [], old => old
  | n, h :: hs, old =>
    let gap := (if newSide h.shown = [] then h.startLine else h.startLine - 1) - n
    old.take gap ++ newSide h.shown ++
      patch (n + gap + (newSide h.shown).length) hs (old.drop (gap + (oldSide h.shown).length))

namespace Tiles

variable {placed : Prop} {n : Nat} {hs : List Hunk} {old new : List String}

/-- Without hunks nothing changes. -/
theorem eq_of_nil (h : Tiles placed n [] old new) : old = new := by
  cases h
  rfl

/-- Replacing the blocks turns the old lines into the new ones. -/
theorem patch (h : Tiles placed n hs old new) (hplaced : placed) : patch n hs old = new := by
  induction h with
  | done => rfl
  | @hunk n gap old new h hs hstarts _ _ ih =>
    have hgap : (if newSide h.shown = [] then h.startLine else h.startLine - 1) - n =
        gap.length := by
      rw [hstarts hplaced]
      split <;> omega
    rw [Diff.patch, hgap, List.take_left, ← List.drop_drop, List.drop_left, List.drop_left, ih,
      List.append_assoc]

/-- A hunk shows the new lines that its numbers say. -/
theorem slice (h : Tiles placed n hs old new) (hplaced : placed) (before : List String)
    (hbefore : before.length = n) : ∀ h ∈ hs, newSide h.shown =
      ((before ++ new).drop (h.startLine - 1)).take (h.endLine - h.startLine) := by
  induction h generalizing before with
  | done => exact fun _ h => nomatch h
  | @hunk n gap old new h hs hstarts hends _ ih =>
    have hlength : (before ++ gap).length = n + gap.length := by rw [List.length_append, hbefore]
    refine List.forall_mem_cons.mpr ⟨?_, ?_⟩
    · rw [hends, Nat.add_sub_cancel_left, hstarts hplaced]
      split
      · rename_i hnone
        rw [hnone]
        rfl
      · rw [Nat.add_sub_cancel, ← List.append_assoc, ← hlength, List.drop_left, List.take_left]
    · rw [← List.append_assoc, ← List.append_assoc]
      exact ih _ (by rw [List.length_append, hlength])

/-- Hunks with new lines follow each other. -/
theorem ordered (h : Tiles placed n hs old new) (hplaced : placed)
    (hne : ∀ h ∈ hs, newSide h.shown ≠ []) :
    hs.Pairwise (fun h h' => h.endLine ≤ h'.startLine) ∧ ∀ h ∈ hs, n < h.startLine := by
  induction h with
  | done => exact ⟨.nil, fun _ h => nomatch h⟩
  | @hunk n gap old new h hs hstarts hends _ ih =>
    obtain ⟨hhead, hne⟩ := List.forall_mem_cons.mp hne
    have hstarts := hstarts hplaced
    rw [if_neg hhead] at hstarts
    obtain ⟨hpairs, hafter⟩ := ih hne
    refine ⟨.cons (fun h' hh' => ?_) hpairs, List.forall_mem_cons.mpr ⟨by omega, fun h' hh' => ?_⟩⟩
    · have := hafter h' hh'
      omega
    · have := hafter h' hh'
      omega

/-- A hunk of an empty text stands at its start. -/
theorem starts_of_nil (h : Tiles placed n hs old []) (hplaced : placed) :
    ∀ h ∈ hs, h.startLine = n ∧ h.endLine = n := by
  generalize hnew : ([] : List String) = new at h
  induction h with
  | done => exact fun _ h => nomatch h
  | @hunk n gap old new h hs hstarts hends _ ih =>
    obtain ⟨rfl, hrest⟩ := List.append_eq_nil_iff.mp hnew.symm
    obtain ⟨hnone, rfl⟩ := List.append_eq_nil_iff.mp hrest
    have hstarts := hstarts hplaced
    rw [if_pos hnone] at hstarts
    rw [hnone] at hends ih
    exact List.forall_mem_cons.mpr ⟨⟨hstarts, hends.trans hstarts⟩, ih rfl⟩

end Tiles

/-- Added lines make the new text longer and removed ones the old text. -/
theorem countP_add_length (ls : List HunkLine) :
    ls.countP (·.kind = .add) + (oldSide ls).length =
      ls.countP (·.kind = .remove) + (newSide ls).length := by
  induction ls with
  | nil => rfl
  | cons l ls ih =>
    cases h : l.kind <;> simp [newSide, oldSide, without, h] at ih ⊢ <;> omega

theorem Tiles.countP_add_length {placed : Prop} {n : Nat} {hs : List Hunk} {old new : List String}
    (h : Tiles placed n hs old new) :
    (hs.flatMap (·.shown)).countP (·.kind = .add) + old.length =
      (hs.flatMap (·.shown)).countP (·.kind = .remove) + new.length := by
  induction h with
  | done => rfl
  | @hunk n gap old new h hs _ _ _ ih =>
    have := Diff.countP_add_length h.shown
    rw [List.flatMap_cons, List.countP_append, List.countP_append]
    simp only [List.length_append]
    omega

/-! ## The difference of two texts -/

section Compare

variable {committed draft : String}

theorem operations_grouped (committed draft : String) :
    Grouped (InPlace 0 (operations committed draft)) (lines committed) (lines draft)
      (groups context (operations committed draft)) (0, 0)
      ((lines committed).size, (lines draft).size)
      (groupLines (lines committed) (lines draft) (operations committed draft)) :=
  groups_grouped (operations_stands committed draft) context

/-- The lines of all operations are the lines of both texts. -/
theorem sides_operations (committed draft : String) :
    oldSide (groupLines (lines committed) (lines draft) (operations committed draft)) =
        (lines committed).toList ∧
      newSide (groupLines (lines committed) (lines draft) (operations committed draft)) =
        (lines draft).toList := by
  obtain ⟨m, n, hends, hold, hnew⟩ := sides_groupLines (operations_stands committed draft)
  obtain ⟨rfl, rfl⟩ : (lines committed).size = m ∧ (lines draft).size = n := by
    simpa only [Prod.mk.injEq, Nat.zero_add] using hends
  exact ⟨hold.trans range_size, hnew.trans range_size⟩

/-- Unless the draft is empty, each group has new lines. -/
theorem newSide_ne_nil (hdraft : (lines draft).size ≠ 0) {g : List Change}
    (hg : g ∈ groups context (operations committed draft)) :
    newSide (groupLines (lines committed) (lines draft) g) ≠ [] := by
  intro hnone
  obtain ⟨p, q, hpath, -, hq⟩ := (operations_grouped committed draft).exists_path hg
  have hends := add_length_newSide hpath hq
  rw [hnone] at hends
  have hzero := (newLength_eq_zero_iff hpath).mpr hends.symm
  have hall := newLength_groups (by decide) hg hzero
  exact hdraft ((newLength_eq_zero_iff (operations_stands committed draft)).mp hall)

/-- A hunk of a difference shows the lines of its group. -/
theorem shown_operations (committed draft : String) (g : List Change) :
    (hunkOf (lines committed) (lines draft) g).shown =
      groupLines (lines committed) (lines draft) g :=
  shown_hunkOf (isLine_of_mem_groupLines (fun _ => isLine_of_mem_lines)
    fun _ => isLine_of_mem_lines)

/-- The hunks of a difference lie over both texts. -/
theorem compare_tiles (committed draft : String) :
    Tiles (InPlace 0 (operations committed draft)) 0 (compare committed draft).hunks
      (lines committed).toList (lines draft).toList := by
  have htiles := tiles_of_grouped (fun _ => isLine_of_mem_lines) (fun _ => isLine_of_mem_lines)
    (operations_grouped committed draft) (Nat.le_refl _) (Nat.le_refl _)
  rwa [(sides_operations committed draft).1, (sides_operations committed draft).2] at htiles

/-- A text and itself make no groups. -/
theorem groups_operations_self (text : String) : groups context (operations text text) = [] := by
  have hkeep : ∀ e ∈ keepRun 0 0 (lines text).size, e.action = .keep := by
    rw [keepRun]
    split
    · exact fun _ h => absurd h List.not_mem_nil
    · exact List.forall_mem_singleton.mpr rfl
  rw [operations, script_self, settle_eq hkeep, keepRun]
  split
  · rfl
  · show cut context [] [.keep _ _ (min (min (lines text).size context) context)] = []
    rw [cut, if_neg (by rw [context]; omega)]
    rfl

/-- A text and itself have no hunks. -/
theorem hunks_compare_self (text : String) : (compare text text).hunks = [] := by
  rw [compare_eq, ofGroups, groups_operations_self]
  rfl

/-- Hunks of operations that are in place follow each other. -/
theorem compare_ordered (committed draft : String) (h : InPlace 0 (operations committed draft)) :
    (compare committed draft).hunks.Pairwise fun h h' => h.endLine ≤ h'.startLine := by
  have htiles := compare_tiles committed draft
  by_cases hdraft : (lines draft).size = 0
  · rw [List.eq_nil_of_length_eq_zero (l := (lines draft).toList) hdraft] at htiles
    have hstart := htiles.starts_of_nil h
    refine List.pairwise_of_forall_mem_list fun h hh h' hh' => ?_
    exact Nat.le_of_eq ((hstart h hh).2.trans (hstart h' hh').1.symm)
  · refine (htiles.ordered h fun h hh => ?_).1
    obtain ⟨g, hg, rfl⟩ := List.mem_map.mp hh
    rw [shown_operations]
    exact newSide_ne_nil hdraft hg

end Compare

/-- What a difference of a committed text and a draft says about them. The numbers of the hunks are
only spoken of where the operations are in place. -/
structure DiffResult.Rebuilds (d : DiffResult) (committed draft : String) (placed : Prop) :
    Prop where
  /-- The hunks lie in order over both texts, which agree outside of them. -/
  tiles : Tiles placed 0 d.hunks (lines committed).toList (lines draft).toList
  /-- The new blocks in the place of the old ones make the draft. -/
  patched : placed → patch 0 d.hunks (lines committed).toList = (lines draft).toList
  /-- The new lines of a hunk are those of the draft from its start to before its end. -/
  numbered : placed → ∀ h ∈ d.hunks, newSide h.shown =
    ((lines draft).toList.drop (h.startLine - 1)).take (h.endLine - h.startLine)
  ordered : placed → d.hunks.Pairwise fun h h' => h.endLine ≤ h'.startLine
  additions : d.additions = (d.hunks.flatMap (·.shown)).countP (·.kind = .add)
  deletions : d.deletions = (d.hunks.flatMap (·.shown)).countP (·.kind = .remove)
  balance : d.additions + (lines committed).size = d.deletions + (lines draft).size
  unchanged : d.hunks = [] ↔ committed = draft

-- Edits change places without moving, so a deletion may stand behind the lines that follow it.
example : ¬InPlace 0 (operations "a\nb\n" "b\nb\n") := by decide +kernel

end ChangeImpact.Diff
