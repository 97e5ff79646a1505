import ChangeImpact.Diff.Hunk
import ChangeImpact.Proofs.Diff.Script

/-!
# What the groups of a script show

The changes of a script lead where the script does, so the lines that they keep and drop are
those of the old list, and the lines that they keep and add are those of the new one. A group
leaves out only kept lines: between two groups, before the first and after the last, both lists
agree.
-/

namespace ChangeImpact.Diff

/-! ## Ranges of lines -/

section Ranges

variable {xs a b : Array String} {i j m n : Nat}

theorem range_eq : range xs i n = (xs.toList.drop i).take n := by
  rw [range, Array.toList_extract, List.extract_eq_take_drop, Nat.add_sub_cancel_left]

theorem range_zero : range xs i 0 = [] := by
  rw [range_eq, List.take_zero]

theorem range_append : range xs i m ++ range xs (i + m) n = range xs i (m + n) := by
  simp only [range_eq, List.take_add, List.drop_drop]

theorem range_size : range xs 0 xs.size = xs.toList := by
  rw [range_eq, List.drop_zero, ← Array.length_toList, List.take_length]

theorem length_range (h : i + n ≤ xs.size) : (range xs i n).length = n := by
  rw [range_eq, List.length_take, List.length_drop, Array.length_toList]
  omega

theorem Shared.range_eq (h : Shared a b i j n) : range a i n = range b j n := by
  refine List.ext_getElem? fun t => ?_
  simp only [Diff.range_eq, List.getElem?_take, List.getElem?_drop, Array.getElem?_toList]
  split
  · exact h t (by assumption)
  · rfl

end Ranges

/-! ## Both sides of a hunk -/

section Sides

variable {a b : Array String} {cs ds : List Change} {ls ls' : List HunkLine} {texts : List String}

/-- The texts of the lines that are not of a kind. -/
def without (k : HunkKind) (ls : List HunkLine) : List String :=
  (ls.filter (·.kind ≠ k)).map (·.text)

theorem without_append (k : HunkKind) :
    without k (ls ++ ls') = without k ls ++ without k ls' := by
  simp only [without, List.filter_append, List.map_append]

theorem without_map (k kind : HunkKind) :
    without k (texts.map (⟨kind, ·⟩)) = if kind = k then [] else texts := by
  by_cases h : kind = k
  · rw [if_pos h, without, List.filter_eq_nil_iff.mpr, List.map_nil]
    intro l hl
    obtain ⟨text, -, rfl⟩ := List.mem_map.mp hl
    simpa using h
  · rw [if_neg h, without, List.filter_eq_self.mpr, List.map_map]
    · exact List.map_id texts
    · intro l hl
      obtain ⟨text, -, rfl⟩ := List.mem_map.mp hl
      simpa using h

/-- The lines of the old text: those that are kept or removed. -/
def oldSide (ls : List HunkLine) : List String := without .add ls

/-- The lines of the new text: those that are kept or added. -/
def newSide (ls : List HunkLine) : List String := without .remove ls

@[simp] theorem oldSide_append : oldSide (ls ++ ls') = oldSide ls ++ oldSide ls' :=
  without_append _

@[simp] theorem newSide_nil : newSide [] = [] := rfl

@[simp] theorem newSide_append : newSide (ls ++ ls') = newSide ls ++ newSide ls' :=
  without_append _

@[simp] theorem oldSide_map (kind : HunkKind) :
    oldSide (texts.map (⟨kind, ·⟩)) = if kind = .add then [] else texts :=
  without_map _ _

@[simp] theorem newSide_map (kind : HunkKind) :
    newSide (texts.map (⟨kind, ·⟩)) = if kind = .remove then [] else texts :=
  without_map _ _

/-- Lines that both texts have. -/
abbrev keptLines (texts : List String) : List HunkLine := texts.map (⟨.context, ·⟩)

theorem groupLines_nil : groupLines a b [] = [] := rfl

theorem groupLines_cons {c : Change} :
    groupLines a b (c :: cs) = c.lines a b ++ groupLines a b cs :=
  List.flatMap_cons

theorem groupLines_append : groupLines a b (cs ++ ds) = groupLines a b cs ++ groupLines a b ds :=
  List.flatMap_append

end Sides

/-! ## Changes -/

/-- A change leads on in the lists that it takes lines from. -/
inductive Change.Runs (a b : Array String) : Change → Nat × Nat → Nat × Nat → Prop where
  | keep {i j n : Nat} (shared : Shared a b i j n) : Runs a b (.keep i j n) (i, j) (i + n, j + n)
  | replace {i j old new m n : Nat} (old_eq : m ≠ 0 → old = i) (new_eq : n ≠ 0 → new = j) :
      Runs a b (.replace old m new n) (i, j) (i + m, j + n)

section Changes

variable {a b : Array String} {e k : Edit} {es : List Edit} {c : Change} {cs : List Change}
  {x : Pending} {p q r : Nat × Nat}

/-- What is waiting leads on in both lists. -/
structure Pending.Runs (x : Pending) (p q : Nat × Nat) : Prop where
  delete : (x.delete = none ∧ q.1 = p.1) ∨
    ∃ d, x.delete = some d ∧ d.old = p.1 ∧ q.1 = p.1 + d.length
  insert : (x.insert = none ∧ q.2 = p.2) ∨
    ∃ i, x.insert = some i ∧ i.new = p.2 ∧ q.2 = p.2 + i.length

theorem Pending.runs_empty : Pending.Runs {} p p :=
  ⟨Or.inl ⟨rfl, rfl⟩, Or.inl ⟨rfl, rfl⟩⟩

/-- A deletion or insertion joins what is waiting. -/
theorem Pending.Runs.add (h : x.Runs p q) (he : e.Runs a b q r) (hkeep : e.action ≠ .keep) :
    (x.add e).Runs p r := by
  obtain ⟨i, j⟩ := p
  cases he with
  | keep => exact absurd rfl hkeep
  | delete =>
    refine ⟨Or.inr ?_, h.insert⟩
    obtain ⟨hd, hq⟩ | ⟨d, hd, hold, hq⟩ := h.delete
    · exact ⟨_, congrArg (Pending.join · _) hd, hq, congrArg (· + _) hq⟩
    · refine ⟨_, congrArg (Pending.join · _) hd, hold, ?_⟩
      exact (congrArg (· + _) hq).trans (Nat.add_assoc ..)
  | insert =>
    refine ⟨h.delete, Or.inr ?_⟩
    obtain ⟨hi, hq⟩ | ⟨i, hi, hnew, hq⟩ := h.insert
    · exact ⟨_, congrArg (Pending.join · _) hi, hq, congrArg (· + _) hq⟩
    · refine ⟨_, congrArg (Pending.join · _) hi, hnew, ?_⟩
      exact (congrArg (· + _) hq).trans (Nat.add_assoc ..)

/-- What is waiting makes at most one change. -/
theorem Pending.Runs.toList (h : x.Runs p q) : Path (Change.Runs a b) x.toList p q := by
  obtain ⟨i, j⟩ := p
  obtain ⟨i', j'⟩ := q
  rw [Pending.toList]
  obtain ⟨hd, hi⟩ | ⟨d, hd, hold, hi⟩ := h.delete <;>
    obtain ⟨hins, hj⟩ | ⟨e, hins, hnew, hj⟩ := h.insert <;>
    (rw [hd, hins]; dsimp only at *; subst hi hj)
  · exact .nil
  · exact path_singleton.mpr (.replace (m := 0) (absurd rfl) fun _ => hnew)
  · exact path_singleton.mpr (.replace (n := 0) (fun _ => hold) (absurd rfl))
  · exact path_singleton.mpr (.replace (fun _ => hold) fun _ => hnew)

/-- The changes of a script lead where the script does, whatever is open before it: edits that
are waiting, or a kept run. -/
theorem changesFrom_runs (h : ScriptRuns a b es q r) :
    (∀ x p, Pending.Runs x p q → Path (Change.Runs a b) (changesFrom none x es) p r) ∧
      ∀ k p, k.action = .keep → k.Runs a b p q →
        Path (Change.Runs a b) (changesFrom (some k) {} es) p r := by
  have hkept {k : Edit} {p q : Nat × Nat} (hk : k.action = .keep) (h : k.Runs a b p q) :
      Change.Runs a b (.keep k.old k.new k.length) p q := by
    cases h with
    | keep hshared => exact .keep hshared
    | delete => cases hk
    | insert => cases hk
  induction h with
  | nil =>
    refine ⟨fun x p hx => hx.toList, fun k p hk h => path_singleton.mpr (hkept hk h)⟩
  | cons hstep hrest ih =>
    rename_i e es q m r
    constructor
    · intro x p hx
      rw [changesFrom]
      split
      · rename_i he
        exact hx.toList.append (ih.2 e q he hstep)
      · rename_i he
        exact ih.1 _ _ (hx.add hstep he)
    · intro k p hk h
      rw [changesFrom]
      split
      · rename_i he
        refine ih.2 _ _ hk ?_
        cases hstep with
        | delete => cases he
        | insert => cases he
        | keep hafter =>
          cases h with
          | delete => cases hk
          | insert => cases hk
          | keep hbefore =>
            exact runs_keep.mpr ⟨⟨rfl, rfl⟩, shared_add.mpr ⟨hbefore, hafter⟩, Nat.add_assoc ..,
              Nat.add_assoc ..⟩
      · rename_i he
        exact .cons (hkept hk h) (ih.1 _ _ (Pending.runs_empty.add hstep he))

/-- The changes of a script lead where the script does. -/
theorem changes_runs (h : ScriptRuns a b es p q) : Path (Change.Runs a b) (changes es) p q :=
  (changesFrom_runs h).1 _ _ Pending.runs_empty

/-- The lines of a change are those that it leads over. -/
theorem Change.Runs.sides (h : c.Runs a b p q) :
    ∃ m n, q = (p.1 + m, p.2 + n) ∧ oldSide (c.lines a b) = range a p.1 m ∧
      newSide (c.lines a b) = range b p.2 n := by
  cases h with
  | keep hshared =>
    refine ⟨_, _, rfl, ?_, ?_⟩
    · rw [lines, oldSide_map, if_neg (by decide)]
    · rw [lines, newSide_map, if_neg (by decide), hshared.range_eq]
  | @replace i j old new m n hold hnew =>
    have hrange {xs : Array String} {i j n : Nat} (h : n ≠ 0 → i = j) :
        range xs i n = range xs j n := by
      by_cases hn : n = 0
      · rw [hn, range_zero, range_zero]
      · rw [h hn]
    refine ⟨m, n, rfl, ?_, ?_⟩
    · rw [lines, oldSide_append, oldSide_map, oldSide_map, if_neg (by decide), if_pos rfl,
        List.append_nil, hrange hold]
    · rw [lines, newSide_append, newSide_map, newSide_map, if_pos rfl, if_neg (by decide),
        List.nil_append, hrange hnew]

end Changes

/-! ## Places of changes -/

/-- Each change stands, in the new list, where the one before it ends. -/
def InPlace : Nat → List Change → Prop
  | _, [] => True
  | j, c :: cs => c.newStart = j ∧ InPlace c.newEnd cs

instance decidableInPlace : ∀ j cs, Decidable (InPlace j cs)
  | _, [] => inferInstanceAs (Decidable True)
  | j, c :: cs =>
    have := decidableInPlace c.newEnd cs
    inferInstanceAs (Decidable (c.newStart = j ∧ InPlace c.newEnd cs))

/-- A change leads on. If `placed` holds, it also stands where it starts in the new list. -/
def Change.Stands (placed : Prop) (a b : Array String) (c : Change) (p q : Nat × Nat) : Prop :=
  c.Runs a b p q ∧ (placed → c.newStart = p.2)

section Standing

variable {a b : Array String} {placed : Prop} {c : Change} {cs : List Change}
  {p q : Nat × Nat} {i j n k : Nat}

theorem Change.stands_keep (h : Shared a b i j n) :
    (Change.keep i j n).Stands placed a b (i, j) (i + n, j + n) :=
  ⟨.keep h, fun _ => rfl⟩

/-- A change that stands in its place ends where it leads to. -/
theorem Change.Stands.newEnd (h : c.Stands placed a b p q) (hplaced : placed) : c.newEnd = q.2 := by
  obtain ⟨hruns, hstart⟩ := h
  have hstart := hstart hplaced
  cases hruns with
  | keep => rfl
  | replace => exact congrArg (· + _) hstart

/-- Changes that follow each other in the new list stand in their places. -/
theorem stands_of_runs (h : Path (Change.Runs a b) cs p q) (hplaced : placed → InPlace p.2 cs) :
    Path (Change.Stands placed a b) cs p q := by
  induction h with
  | nil => exact .nil
  | cons hstep _ ih =>
    have hstands : Change.Stands placed a b _ _ _ := ⟨hstep, fun h => (hplaced h).1⟩
    exact .cons hstands (ih fun h => hstands.newEnd h ▸ (hplaced h).2)

/-- The lines of changes are those that they lead over. -/
theorem sides_groupLines (h : Path (Change.Stands placed a b) cs p q) :
    ∃ m n, q = (p.1 + m, p.2 + n) ∧ oldSide (groupLines a b cs) = range a p.1 m ∧
      newSide (groupLines a b cs) = range b p.2 n := by
  induction h with
  | nil => exact ⟨0, 0, rfl, range_zero.symm, range_zero.symm⟩
  | cons hstep _ ih =>
    obtain ⟨m, n, rfl, hold, hnew⟩ := hstep.1.sides
    obtain ⟨m', n', rfl, hold', hnew'⟩ := ih
    refine ⟨m + m', n + n', by rw [Nat.add_assoc, Nat.add_assoc], ?_, ?_⟩
    · rw [groupLines_cons, oldSide_append, hold, hold', range_append]
    · rw [groupLines_cons, newSide_append, hnew, hnew', range_append]

end Standing

/-! ## Groups -/

/-- Groups of changes lead from a pair of places to another, and so do the kept lines between
them, before the first and after the last. The last argument are the lines of all. -/
inductive Grouped (placed : Prop) (a b : Array String) :
    List (List Change) → Nat × Nat → Nat × Nat → List HunkLine → Prop where
  | done {i j n : Nat} (shared : Shared a b i j n) :
      Grouped placed a b [] (i, j) (i + n, j + n) (keptLines (range a i n))
  | group {g : List Change} {gs : List (List Change)} {i j n : Nat} {q r : Nat × Nat}
      {ls : List HunkLine} (shared : Shared a b i j n) (ne_nil : g ≠ [])
      (path : Path (Change.Stands placed a b) g (i + n, j + n) q)
      (rest : Grouped placed a b gs q r ls) :
      Grouped placed a b (g :: gs) (i, j) r
        (keptLines (range a i n) ++ (groupLines a b g ++ ls))

section Grouping

variable {a b : Array String} {placed : Prop} {c : Change} {cs group : List Change}
  {gs : List (List Change)} {ls : List HunkLine} {p q r : Nat × Nat} {i j n k : Nat}

theorem keptLines_append :
    keptLines (range a i n) ++ keptLines (range a (i + n) k) = keptLines (range a i (n + k)) := by
  rw [← List.map_append, range_append]

/-- A path leads on in both lists. -/
theorem le_of_stands (h : Path (Change.Stands placed a b) cs p q) : p.1 ≤ q.1 ∧ p.2 ≤ q.2 := by
  obtain ⟨m, n, rfl, -⟩ := sides_groupLines h
  exact ⟨Nat.le_add_right .., Nat.le_add_right ..⟩

/-- Within the new list a path goes on by its new lines. -/
theorem add_length_newSide (h : Path (Change.Stands placed a b) cs p q) (hq : q.2 ≤ b.size) :
    p.2 + (newSide (groupLines a b cs)).length = q.2 := by
  obtain ⟨m, n, rfl, -, hnew⟩ := sides_groupLines h
  rw [hnew, length_range hq]

theorem Grouped.le (h : Grouped placed a b gs p r ls) : p.1 ≤ r.1 ∧ p.2 ≤ r.2 := by
  induction h with
  | done => exact ⟨Nat.le_add_right .., Nat.le_add_right ..⟩
  | group _ _ hpath _ ih =>
    have := le_of_stands hpath
    dsimp only at *
    omega

/-- Kept lines before the groups. -/
theorem Grouped.gap_append (h : Grouped placed a b gs (i + n, j + n) r ls)
    (hshared : Shared a b i j n) :
    Grouped placed a b gs (i, j) r (keptLines (range a i n) ++ ls) := by
  cases h with
  | done h =>
    rw [keptLines_append, Nat.add_assoc, Nat.add_assoc]
    exact .done (shared_add.mpr ⟨hshared, h⟩)
  | group h hne hpath hrest =>
    rw [← List.append_assoc, keptLines_append]
    rw [Nat.add_assoc, Nat.add_assoc] at hpath
    exact .group (shared_add.mpr ⟨hshared, h⟩) hne hpath hrest

/-- Kept lines after the groups. -/
theorem Grouped.append_gap (h : Grouped placed a b gs p q ls) (hshared : Shared a b q.1 q.2 n) :
    Grouped placed a b gs p (q.1 + n, q.2 + n) (ls ++ keptLines (range a q.1 n)) := by
  induction h with
  | done h =>
    rw [keptLines_append, Nat.add_assoc, Nat.add_assoc]
    exact .done (shared_add.mpr ⟨h, hshared⟩)
  | group h hne hpath _ ih =>
    rw [List.append_assoc, List.append_assoc]
    exact .group h hne hpath (ih hshared)

/-- A kept run falls into its first lines and the others. -/
theorem Change.Stands.split_keep (h : (Change.keep i j n).Stands placed a b p q) (hk : k ≤ n) :
    p = (i, j) ∧ q = (i + n, j + n) ∧ Shared a b i j k ∧ Shared a b (i + k) (j + k) (n - k) := by
  cases h.1 with
  | keep hshared => exact ⟨rfl, rfl, hshared.take hk, hshared.drop hk⟩

/-- The last lines of a kept run, after the others. -/
theorem stands_keepLast (h : c.Stands placed a b (i, j) q) (m : Nat) :
    ∃ k, Shared a b i j k ∧ (keepLast m c).Stands placed a b (i + k, j + k) q ∧
      c.lines a b = keptLines (range a i k) ++ (keepLast m c).lines a b := by
  cases c with
  | replace => exact ⟨0, shared_zero, h, by rw [range_zero]; rfl⟩
  | keep old new n =>
    obtain ⟨hp, rfl, hfirst, hlast⟩ := h.split_keep (Nat.sub_le n m)
    cases hp
    have hn : n - (n - m) = min n m := by omega
    have hsum : n - m + min n m = n := by omega
    have hstands : (Change.keep _ _ _).Stands placed a b _ _ := Change.stands_keep (hn ▸ hlast)
    rw [Nat.add_assoc, Nat.add_assoc, hsum] at hstands
    refine ⟨n - m, hfirst, hstands, ?_⟩
    rw [keepLast, Change.lines, Change.lines, keptLines_append, hsum]

/-- The first lines of a kept run, before the others. -/
theorem stands_keepFirst (h : c.Stands placed a b p q) (m : Nat) :
    ∃ i j k, q = (i + k, j + k) ∧ Shared a b i j k ∧ (keepFirst m c).Stands placed a b p (i, j) ∧
      c.lines a b = (keepFirst m c).lines a b ++ keptLines (range a i k) := by
  cases c with
  | replace =>
    refine ⟨q.1, q.2, 0, rfl, shared_zero, h, ?_⟩
    rw [range_zero]
    exact (List.append_nil _).symm
  | keep old new n =>
    obtain ⟨rfl, rfl, hfirst, hlast⟩ := h.split_keep (Nat.min_le_left n m)
    refine ⟨_, _, _, ?_, hlast, Change.stands_keep hfirst, ?_⟩
    · rw [Nat.add_assoc, Nat.add_assoc, Nat.add_sub_cancel' (Nat.min_le_left n m)]
    · rw [keepFirst, Change.lines, Change.lines, keptLines_append,
        Nat.add_sub_cancel' (Nat.min_le_left n m)]

/-- What is trimmed at the start are kept lines. -/
theorem trimStart_stands (h : Path (Change.Stands placed a b) cs (i, j) q) (m : Nat) :
    ∃ k, Shared a b i j k ∧ Path (Change.Stands placed a b) (trimStart m cs) (i + k, j + k) q ∧
      groupLines a b cs = keptLines (range a i k) ++ groupLines a b (trimStart m cs) := by
  cases cs with
  | nil => exact ⟨0, shared_zero, h, by rw [range_zero]; rfl⟩
  | cons c cs =>
    obtain ⟨r, hfirst, hrest⟩ := path_cons.mp h
    obtain ⟨k, hshared, hlast, hlines⟩ := stands_keepLast hfirst m
    refine ⟨k, hshared, .cons hlast hrest, ?_⟩
    rw [trimStart, groupLines_cons, groupLines_cons, hlines, List.append_assoc]

/-- What is trimmed at the end are kept lines. -/
theorem trimEnd_stands (h : Path (Change.Stands placed a b) cs p q) (m : Nat) :
    ∃ i j k, q = (i + k, j + k) ∧ Shared a b i j k ∧
      Path (Change.Stands placed a b) (trimEnd m cs) p (i, j) ∧
      groupLines a b cs = groupLines a b (trimEnd m cs) ++ keptLines (range a i k) := by
  induction h with
  | @nil p => exact ⟨p.1, p.2, 0, rfl, shared_zero, .nil, by rw [range_zero]; rfl⟩
  | @cons c cs p q r hstep hrest ih =>
    cases cs with
    | nil =>
      obtain rfl := path_nil.mp hrest
      obtain ⟨i, j, k, rfl, hshared, hfirst, hlines⟩ := stands_keepFirst hstep m
      refine ⟨i, j, k, rfl, hshared, path_singleton.mpr hfirst, ?_⟩
      rw [trimEnd, groupLines_cons, groupLines_cons, groupLines_nil, List.append_nil,
        List.append_nil, hlines]
    | cons d ds =>
      obtain ⟨i, j, k, hq, hshared, hpath, hlines⟩ := ih
      refine ⟨i, j, k, hq, hshared, .cons hstep hpath, ?_⟩
      rw [groupLines_cons, hlines, ← List.append_assoc, ← groupLines_cons]
      rfl

/-- A long kept run has its first and its last lines apart from each other. -/
theorem stands_both {m : Nat} (h : (Change.keep i j n).Stands placed a b p q) (hm : 2 * m < n) :
    ∃ i' j' k, Shared a b i' j' k ∧
      (keepFirst m (.keep i j n)).Stands placed a b p (i', j') ∧
      (keepLast m (.keep i j n)).Stands placed a b (i' + k, j' + k) q ∧
      (Change.keep i j n).lines a b = (keepFirst m (.keep i j n)).lines a b ++
        (keptLines (range a i' k) ++ (keepLast m (.keep i j n)).lines a b) := by
  have hfirst : min n m = m := by omega
  obtain ⟨rfl, rfl, hbefore, hafter⟩ := h.split_keep (show m ≤ n by omega)
  have hrest : (Change.keep _ _ _).Stands placed a b _ _ := Change.stands_keep hafter
  obtain ⟨k, hshared, hlast, hlines⟩ := stands_keepLast hrest m
  have hsame : keepLast m (.keep (i + m) (j + m) (n - m)) = keepLast m (.keep i j n) := by
    simp only [keepLast, Change.keep.injEq]
    omega
  have hend (x : Nat) : x + m + (n - m) = x + n := by omega
  rw [hend, hend, hsame] at hlast
  refine ⟨i + m, j + m, k, hshared, ?_, hlast, ?_⟩
  · rw [keepFirst, hfirst]
    exact Change.stands_keep hbefore
  · rw [← hsame, ← hlines, keepFirst, hfirst, Change.lines, Change.lines, Change.lines,
      keptLines_append, Nat.add_sub_cancel' (show m ≤ n by omega)]

theorem Grouped.empty {p : Nat × Nat} : Grouped placed a b [] p p [] := by
  have hdone : Grouped placed a b [] p p (keptLines (range a p.1 0)) := .done shared_zero
  rwa [range_zero] at hdone

/-- One more group right before the others. -/
theorem Grouped.cons {g : List Change} (hne : g ≠ [])
    (hpath : Path (Change.Stands placed a b) g p q) (hrest : Grouped placed a b gs q r ls) :
    Grouped placed a b (g :: gs) p r (groupLines a b g ++ ls) := by
  have hgroup := Grouped.group (shared_zero (a := a) (b := b) (i := p.1) (j := p.2)) hne hpath hrest
  rwa [range_zero] at hgroup

/-- At the end the open group is shown unless it has kept lines only. -/
theorem cut_nil_grouped {m : Nat} (hgroup : Path (Change.Stands placed a b) group.reverse p q) :
    Grouped placed a b (cut m group []) p q (groupLines a b group.reverse) := by
  rw [cut]
  split
  · rename_i hshown
    have hne : group.reverse ≠ [] := by
      rintro hnil
      rw [List.reverse_eq_nil_iff.mp hnil] at hshown
      cases hshown
    simpa only [List.append_nil] using Grouped.cons hne hgroup .empty
  · rename_i hhidden
    match group, hhidden with
    | [], _ =>
      obtain rfl := path_nil.mp hgroup
      exact .empty
    | [.keep old new n], _ =>
      obtain ⟨rfl, rfl, hshared, -⟩ := (path_singleton.mp hgroup).split_keep (Nat.le_refl n)
      rw [List.reverse_singleton, groupLines_cons, groupLines_nil, List.append_nil]
      exact .done hshared
    | [.replace ..], hhidden => exact absurd rfl hhidden
    | _ :: _ :: _, hhidden => exact absurd rfl hhidden

/-- Cutting the changes after an open group leaves out kept lines only. -/
theorem cut_grouped {m : Nat} (hgroup : Path (Change.Stands placed a b) group.reverse p q)
    (h : Path (Change.Stands placed a b) cs q r) :
    Grouped placed a b (cut m group cs) p r (groupLines a b (group.reverse ++ cs)) := by
  induction cs generalizing group p q with
  | nil =>
    obtain rfl := path_nil.mp h
    rw [List.append_nil]
    exact cut_nil_grouped hgroup
  | cons c cs ih =>
    obtain ⟨s, hstep, hrest⟩ := path_cons.mp h
    have hjoin : Path (Change.Stands placed a b) (c :: group).reverse p s := by
      rw [List.reverse_cons]
      exact hgroup.append (path_singleton.mpr hstep)
    have hgo : Grouped placed a b (cut m (c :: group) cs) p r
        (groupLines a b (group.reverse ++ c :: cs)) := by
      have := ih hjoin hrest
      rwa [List.reverse_cons, List.append_assoc] at this
    cases c with
    | replace => rwa [cut]
    | keep old new n =>
      rw [cut]
      split
      · -- a long run ends this group and starts the next one
        rename_i hlong
        obtain ⟨i, j, k, hshared, hhead, hlast, hlines⟩ := stands_both hstep hlong
        have hopen : Path (Change.Stands placed a b) [keepLast m (.keep old new n)].reverse _ _ :=
          path_singleton.mpr hlast
        have hnext := (ih hopen hrest).gap_append hshared
        have hended : Path (Change.Stands placed a b)
            (group.reverse ++ [keepFirst m (.keep old new n)]) p (i, j) :=
          hgroup.append (path_singleton.mpr hhead)
        have hall : groupLines a b (group.reverse ++ [keepFirst m (.keep old new n)]) ++
            (keptLines (range a i k) ++ groupLines a b ([keepLast m (.keep old new n)] ++ cs)) =
            groupLines a b (group.reverse ++ .keep old new n :: cs) := by
          simp only [groupLines_append, groupLines_cons, groupLines_nil, hlines, List.append_assoc,
            List.append_nil]
        rw [List.reverse_cons, ← hall]
        exact .cons (by simp) hended hnext
      · exact hgo

/-- The groups of changes lead where the changes do, and show the same lines but for kept ones. -/
theorem groups_grouped (h : Path (Change.Stands placed a b) cs p q) (m : Nat) :
    Grouped placed a b (groups m cs) p q (groupLines a b cs) := by
  obtain ⟨i, j⟩ := p
  obtain ⟨k, hshared, hstart, hlines⟩ := trimStart_stands h m
  obtain ⟨i', j', k', rfl, hshared', hboth, hlines'⟩ := trimEnd_stands hstart m
  have hopen : Path (Change.Stands placed a b) [].reverse (i + k, j + k) (i + k, j + k) := .nil
  have hcut := cut_grouped (m := m) hopen hboth
  have := (hcut.append_gap hshared').gap_append hshared
  rwa [List.reverse_nil, List.nil_append, ← hlines', ← hlines] at this

/-- Each group leads from one pair of places to another on the way. -/
theorem Grouped.exists_path (h : Grouped placed a b gs p r ls) {g : List Change} (hg : g ∈ gs) :
    ∃ p q, Path (Change.Stands placed a b) g p q ∧ q.1 ≤ r.1 ∧ q.2 ≤ r.2 := by
  induction h with
  | done => cases hg
  | group _ _ hpath hrest ih =>
    rcases List.mem_cons.mp hg with rfl | hg
    · exact ⟨_, _, hpath, hrest.le⟩
    · exact ih hg

end Grouping

/-! ## Groups without new lines -/

/-- The number of lines of the new text that a change has. -/
def Change.newLength : Change → Nat
  | .keep _ _ length => length
  | .replace _ _ _ newLength => newLength

section NewLength

variable {a b : Array String} {placed : Prop} {c : Change} {cs group g : List Change}
  {p q : Nat × Nat} {m : Nat}

/-- A path stays where it is in the new list just when its changes have no new lines. -/
theorem newLength_eq_zero_iff (h : Path (Change.Stands placed a b) cs p q) :
    (∀ c ∈ cs, c.newLength = 0) ↔ q.2 = p.2 := by
  induction h with
  | nil => exact ⟨fun _ => rfl, fun _ _ h => nomatch h⟩
  | @cons c cs p q r hstep hrest ih =>
    have hq : q.2 = p.2 + c.newLength := by
      cases hstep.1 with
      | keep => rfl
      | replace => rfl
    have hle := (le_of_stands hrest).2
    rw [List.forall_mem_cons, ih]
    omega

theorem newLength_keepLast (hm : 0 < m) (h : (keepLast m c).newLength = 0) : c.newLength = 0 := by
  cases c with
  | keep old new n =>
    change min n m = 0 at h
    change n = 0
    omega
  | replace => exact h

theorem newLength_keepFirst (hm : 0 < m) (h : (keepFirst m c).newLength = 0) :
    c.newLength = 0 := by
  cases c with
  | keep old new n =>
    change min n m = 0 at h
    change n = 0
    omega
  | replace => exact h

theorem newLength_trimEnd (hm : 0 < m) (h : ∀ c ∈ trimEnd m cs, c.newLength = 0) :
    ∀ c ∈ cs, c.newLength = 0 := by
  fun_induction trimEnd m cs with
  | case1 => exact h
  | case2 c =>
    rw [List.forall_mem_singleton] at h ⊢
    exact newLength_keepFirst hm h
  | case3 c cs _ ih =>
    rw [List.forall_mem_cons] at h ⊢
    exact ⟨h.1, ih h.2⟩

/-- A long kept run gives new lines to the group that it ends and to the one that it starts. -/
theorem newLength_cut (hm : 0 < m) (hg : g ∈ cut m group cs) (h : ∀ c ∈ g, c.newLength = 0) :
    (∀ c ∈ group, c.newLength = 0) ∧ ∀ c ∈ cs, c.newLength = 0 := by
  induction cs generalizing group with
  | nil =>
    rw [cut] at hg
    split at hg
    · rw [List.mem_singleton.mp hg] at h
      exact ⟨fun c hc => h c (List.mem_reverse.mpr hc), fun _ h => nomatch h⟩
    · cases hg
  | cons c cs ih =>
    have hgo (hg : g ∈ cut m (c :: group) cs) :
        (∀ c ∈ group, c.newLength = 0) ∧ ∀ d ∈ c :: cs, d.newLength = 0 := by
      obtain ⟨hgroup, hcs⟩ := ih hg
      obtain ⟨hc, hgroup⟩ := List.forall_mem_cons.mp hgroup
      exact ⟨hgroup, List.forall_mem_cons.mpr ⟨hc, hcs⟩⟩
    cases c with
    | replace =>
      rw [cut] at hg
      exact hgo hg
    | keep old new n =>
      rw [cut] at hg
      split at hg
      · rename_i hlong
        have hempty : n = 0 := by
          rcases List.mem_cons.mp hg with rfl | hg
          · exact newLength_keepFirst hm (h _ (List.mem_reverse.mpr (List.mem_cons_self ..)))
          · exact newLength_keepLast hm ((ih hg).1 _ (List.mem_cons_self ..))
        omega
      · exact hgo hg

/-- A group has new lines unless there are none at all. -/
theorem newLength_groups (hm : 0 < m) (hg : g ∈ groups m cs) (h : ∀ c ∈ g, c.newLength = 0) :
    ∀ c ∈ cs, c.newLength = 0 := by
  have htrimmed := newLength_trimEnd hm (newLength_cut hm hg h).2
  cases cs with
  | nil => exact htrimmed
  | cons c cs =>
    rw [trimStart, List.forall_mem_cons] at htrimmed
    exact List.forall_mem_cons.mpr ⟨newLength_keepLast hm htrimmed.1, htrimmed.2⟩

end NewLength

end ChangeImpact.Diff
