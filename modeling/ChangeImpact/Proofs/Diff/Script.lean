import ChangeImpact.Diff.Snake

/-!
# What a script does

A script is read as a path through both lists: a kept run goes on in both, a deletion in the old
list and an insertion in the new one. The place of a deletion in the new list and the place of an
insertion in the old one play no part in it. The script of two lists leads from their starts to
their ends.
-/

namespace ChangeImpact.Diff

/-! ## Paths -/

section Paths

variable {α : Type} {R : α → Nat × Nat → Nat × Nat → Prop} {x : α} {xs ys zs : List α}
  {p q r : Nat × Nat}

/-- The steps of a list lead, one after the other, from a pair of places to another. -/
inductive Path (R : α → Nat × Nat → Nat × Nat → Prop) : List α → Nat × Nat → Nat × Nat → Prop where
  | nil {p : Nat × Nat} : Path R [] p p
  | cons {x : α} {xs : List α} {p q r : Nat × Nat} (step : R x p q) (rest : Path R xs q r) :
      Path R (x :: xs) p r

theorem path_nil : Path R [] p q ↔ p = q := by
  constructor
  · rintro ⟨⟩
    rfl
  · rintro rfl
    exact .nil

theorem path_cons : Path R (x :: xs) p r ↔ ∃ q, R x p q ∧ Path R xs q r := by
  constructor
  · rintro (_ | ⟨hstep, hrest⟩)
    exact ⟨_, hstep, hrest⟩
  · rintro ⟨q, hstep, hrest⟩
    exact .cons hstep hrest

theorem path_singleton : Path R [x] p q ↔ R x p q := by
  simp only [path_cons, path_nil, exists_eq_right]

theorem path_append : Path R (xs ++ ys) p r ↔ ∃ q, Path R xs p q ∧ Path R ys q r := by
  induction xs generalizing p with
  | nil => simp only [List.nil_append, path_nil, exists_eq_left']
  | cons x xs ih =>
    simp only [List.cons_append, path_cons, ih]
    constructor
    · rintro ⟨q, hstep, r, hxs, hys⟩
      exact ⟨r, ⟨q, hstep, hxs⟩, hys⟩
    · rintro ⟨r, ⟨q, hstep, hxs⟩, hys⟩
      exact ⟨q, hstep, r, hxs, hys⟩

theorem Path.append (hxs : Path R xs p q) (hys : Path R ys q r) : Path R (xs ++ ys) p r :=
  path_append.mpr ⟨q, hxs, hys⟩

/-- What leads to the same place can be exchanged at the end of a path. -/
theorem Path.exchangeEnd {ys' : List α} (h : Path R (xs ++ ys) p r)
    (hys : ∀ p q, Path R ys p q → Path R ys' p q) : Path R (xs ++ ys') p r := by
  obtain ⟨q, hxs, hend⟩ := path_append.mp h
  exact hxs.append (hys _ _ hend)

/-- What leads nowhere can be left out. -/
theorem Path.leaveOut (h : Path R (xs ++ x :: ys) p r) (hx : ∀ p q, R x p q → p = q) :
    Path R (xs ++ ys) p r :=
  h.exchangeEnd fun p _ h => by
    obtain ⟨q, hstep, hys⟩ := path_cons.mp h
    exact hx p q hstep ▸ hys

/-- What leads to the same place can be exchanged in the middle of a path. -/
theorem Path.exchange {ys' : List α} (h : Path R (xs ++ (ys ++ zs)) p r)
    (hys : ∀ p q, Path R ys p q → Path R ys' p q) : Path R (xs ++ (ys' ++ zs)) p r :=
  h.exchangeEnd fun _ _ h => by
    obtain ⟨q, hmiddle, hzs⟩ := path_append.mp h
    exact (hys _ _ hmiddle).append hzs

end Paths

/-! ## Shared lines -/

section Shared

variable {a b : Array String} {i j m n : Nat}

/-- Two lists have these many lines in common from two places on. -/
def Shared (a b : Array String) (i j n : Nat) : Prop :=
  ∀ t < n, a[i + t]? = b[j + t]?

theorem shared_zero : Shared a b i j 0 :=
  fun _ ht => absurd ht (Nat.not_lt_zero _)

theorem shared_add : Shared a b i j (m + n) ↔ Shared a b i j m ∧ Shared a b (i + m) (j + m) n := by
  constructor
  · refine fun h => ⟨fun t ht => h t (by omega), fun t ht => ?_⟩
    rw [Nat.add_assoc, Nat.add_assoc]
    exact h (m + t) (by omega)
  · rintro ⟨hm, hn⟩ t ht
    by_cases hlt : t < m
    · exact hm t hlt
    · have := hn (t - m) (by omega)
      rwa [Nat.add_assoc, Nat.add_assoc, Nat.add_sub_cancel' (by omega)] at this

theorem Shared.take (h : Shared a b i j n) (hmn : m ≤ n) : Shared a b i j m :=
  fun t ht => h t (by omega)

theorem Shared.drop (h : Shared a b i j n) (hmn : m ≤ n) : Shared a b (i + m) (j + m) (n - m) := by
  rw [← Nat.add_sub_cancel' hmn, shared_add] at h
  exact h.2

/-- The common lines from two places on lie before the two ends. -/
theorem commonPrefix_spec (a b : Array String) (i iEnd j jEnd : Nat) :
    Shared a b i j (commonPrefix a b i iEnd j jEnd) ∧
      (i ≤ iEnd → i + commonPrefix a b i iEnd j jEnd ≤ iEnd) ∧
      (j ≤ jEnd → j + commonPrefix a b i iEnd j jEnd ≤ jEnd) := by
  fun_induction commonPrefix a b i iEnd j jEnd with
  | case1 i j h ih =>
    refine ⟨?_, by omega, by omega⟩
    rw [shared_add]
    refine ⟨fun t ht => ?_, ih.1⟩
    obtain rfl : t = 0 := by omega
    exact h.2.2
  | case2 i j h => exact ⟨shared_zero, id, id⟩

/-- The common lines before two ends lie after the two starts. -/
theorem commonSuffix_spec (a b : Array String) (i j iEnd jEnd : Nat) :
    Shared a b (iEnd - commonSuffix a b i j iEnd jEnd) (jEnd - commonSuffix a b i j iEnd jEnd)
        (commonSuffix a b i j iEnd jEnd) ∧
      commonSuffix a b i j iEnd jEnd ≤ iEnd ∧ commonSuffix a b i j iEnd jEnd ≤ jEnd ∧
      (i ≤ iEnd → i + commonSuffix a b i j iEnd jEnd ≤ iEnd) ∧
      (j ≤ jEnd → j + commonSuffix a b i j iEnd jEnd ≤ jEnd) := by
  fun_induction commonSuffix a b i j iEnd jEnd with
  | case1 iEnd jEnd h ih =>
    obtain ⟨hshared, hi, hj, hleft, hright⟩ := ih
    refine ⟨?_, by omega, by omega, by omega, by omega⟩
    rw [Nat.add_comm 1, Nat.succ_sub_succ, Nat.succ_sub_succ, shared_add,
      Nat.sub_add_cancel hi, Nat.sub_add_cancel hj]
    refine ⟨hshared, fun t ht => ?_⟩
    obtain rfl : t = 0 := by omega
    exact h.2.2
  | case2 iEnd jEnd h => exact ⟨shared_zero, Nat.zero_le _, Nat.zero_le _, id, id⟩
  | case3 => exact ⟨shared_zero, Nat.zero_le _, Nat.zero_le _, id, id⟩

end Shared

/-! ## Edits -/

/-- An edit leads on in the lists that it takes lines from. -/
inductive Edit.Runs (a b : Array String) : Edit → Nat × Nat → Nat × Nat → Prop where
  | keep {i j n : Nat} (shared : Shared a b i j n) : Runs a b ⟨.keep, i, j, n⟩ (i, j) (i + n, j + n)
  | delete {i j new n : Nat} : Runs a b ⟨.delete, i, new, n⟩ (i, j) (i + n, j)
  | insert {i j old n : Nat} : Runs a b ⟨.insert, old, j, n⟩ (i, j) (i, j + n)

section Runs

variable {a b : Array String} {i j i' j' old new n : Nat}

theorem runs_keep : Edit.Runs a b ⟨.keep, old, new, n⟩ (i, j) (i', j') ↔
    (old = i ∧ new = j) ∧ Shared a b i j n ∧ i' = i + n ∧ j' = j + n := by
  constructor
  · rintro ⟨hshared⟩
    exact ⟨⟨rfl, rfl⟩, hshared, rfl, rfl⟩
  · rintro ⟨⟨rfl, rfl⟩, hshared, rfl, rfl⟩
    exact .keep hshared

theorem runs_delete : Edit.Runs a b ⟨.delete, old, new, n⟩ (i, j) (i', j') ↔
    old = i ∧ i' = i + n ∧ j' = j := by
  constructor
  · rintro ⟨⟩
    exact ⟨rfl, rfl, rfl⟩
  · rintro ⟨rfl, rfl, rfl⟩
    exact .delete

theorem runs_insert : Edit.Runs a b ⟨.insert, old, new, n⟩ (i, j) (i', j') ↔
    new = j ∧ i' = i ∧ j' = j + n := by
  constructor
  · rintro ⟨⟩
    exact ⟨rfl, rfl, rfl⟩
  · rintro ⟨rfl, rfl, rfl⟩
    exact .insert

end Runs

/-- A script leads from a pair of places to another. -/
abbrev ScriptRuns (a b : Array String) : List Edit → Nat × Nat → Nat × Nat → Prop :=
  Path (Edit.Runs a b)

section Solving

variable {a b : Array String}

theorem keepRun_runs {i j n : Nat} (h : Shared a b i j n) :
    ScriptRuns a b (keepRun i j n) (i, j) (i + n, j + n) := by
  rw [keepRun]
  split
  · rename_i hn
    rw [hn]
    exact .nil
  · exact path_singleton.mpr (.keep h)

/-- A box that can be dropped and added as a whole. -/
theorem replaceAll_runs {box : Box} (hold : box.oldStart ≤ box.oldStop)
    (hnew : box.newStart ≤ box.newStop) :
    ScriptRuns a b (replaceAll box) (box.oldStart, box.newStart) (box.oldStop, box.newStop) := by
  refine path_append.mpr ⟨(box.oldStop, box.newStart), ?_, ?_⟩
  · split
    · rename_i h
      rw [Box.rows] at h
      rw [show box.oldStop = box.oldStart by omega]
      exact .nil
    · have hdelete : Edit.Runs a b ⟨.delete, box.oldStart, box.newStart, box.rows⟩
          (box.oldStart, box.newStart) (box.oldStart + box.rows, box.newStart) := .delete
      rw [Box.rows, Nat.add_sub_cancel' hold] at hdelete
      exact path_singleton.mpr hdelete
  · split
    · rename_i h
      rw [Box.columns] at h
      rw [show box.newStop = box.newStart by omega]
      exact .nil
    · have hinsert : Edit.Runs a b ⟨.insert, box.oldStart, box.newStart, box.columns⟩
          (box.oldStop, box.newStart) (box.oldStop, box.newStart + box.columns) := .insert
      rw [Box.columns, Nat.add_sub_cancel' hnew] at hinsert
      exact path_singleton.mpr hinsert

/-- The script of a box keeps the common ends. What lies between them is replaced as a whole or
split in two smaller boxes. -/
theorem exists_solve_eq (a b : Array String) (box : Box) :
    ∃ p s between,
      p = commonPrefix a b box.oldStart box.oldStop box.newStart box.newStop ∧
      s = commonSuffix a b (box.oldStart + p) (box.newStart + p) box.oldStop box.newStop ∧
      solve a b box = keepRun box.oldStart box.newStart p ++ between ++
        keepRun (box.oldStop - s) (box.newStop - s) s ∧
      (between = replaceAll (box.shrink p s) ∨
        ∃ x y, (box.shrink p s).splitsAt x y = true ∧
          between = solve a b ⟨(box.shrink p s).oldStart, x, (box.shrink p s).newStart, y⟩ ++
            solve a b ⟨x, (box.shrink p s).oldStop, y, (box.shrink p s).newStop⟩) := by
  refine ⟨_, _, _, rfl, rfl, by rw [solve]; rfl, ?_⟩
  split
  · exact Or.inl rfl
  · split
    · exact Or.inl rfl
    · split
      · rename_i hsplits
        exact Or.inr ⟨_, _, hsplits, rfl⟩
      · exact Or.inl rfl

/-- The script of a box leads from its starts to its ends. -/
theorem solve_runs (box : Box) (hold : box.oldStart ≤ box.oldStop)
    (hnew : box.newStart ≤ box.newStop) :
    ScriptRuns a b (solve a b box) (box.oldStart, box.newStart) (box.oldStop, box.newStop) := by
  induction hsize : box.total using Nat.strongRecOn generalizing box with
  | ind size ih =>
    subst hsize
    obtain ⟨p, s, between, hp, hs, hsolve, hbetween⟩ := exists_solve_eq a b box
    obtain ⟨hfront, hleft, hright⟩ := hp ▸ commonPrefix_spec a b
      box.oldStart box.oldStop box.newStart box.newStop
    obtain ⟨hback, hi, hj, hold', hnew'⟩ := hs ▸ commonSuffix_spec a b
      (box.oldStart + p) (box.newStart + p) box.oldStop box.newStop
    have hend := keepRun_runs hback
    rw [Nat.sub_add_cancel hi, Nat.sub_add_cancel hj] at hend
    rw [hsolve]
    refine ((keepRun_runs hfront).append ?_).append hend
    -- what lies between the common ends is a box again
    have hinner : (box.shrink p s).oldStart ≤ (box.shrink p s).oldStop ∧
        (box.shrink p s).newStart ≤ (box.shrink p s).newStop :=
      ⟨Nat.le_sub_of_add_le (hold' (hleft hold)), Nat.le_sub_of_add_le (hnew' (hright hnew))⟩
    show ScriptRuns a b between ((box.shrink p s).oldStart, (box.shrink p s).newStart)
      ((box.shrink p s).oldStop, (box.shrink p s).newStop)
    obtain rfl | ⟨x, y, hsplits, rfl⟩ := hbetween
    · exact replaceAll_runs hinner.1 hinner.2
    · have hsize := box.total_shrink_le p s
      have hxy := hsplits
      simp only [Box.splitsAt, Bool.and_eq_true, decide_eq_true_eq] at hxy
      exact Path.append (q := (x, y))
        (ih _ (Nat.lt_of_lt_of_le (Box.total_before_lt hsplits) hsize) ⟨_, x, _, y⟩
          hxy.1.1.1.1.1 hxy.1.1.1.2 rfl)
        (ih _ (Nat.lt_of_lt_of_le (Box.total_after_lt hsplits) hsize) ⟨x, _, y, _⟩
          hxy.1.1.1.1.2 hxy.1.1.2 rfl)

/-- The script of two lists leads from their starts to their ends. -/
theorem script_runs : ScriptRuns a b (script a b) (0, 0) (a.size, b.size) :=
  solve_runs ⟨0, a.size, 0, b.size⟩ (Nat.zero_le _) (Nat.zero_le _)

/-- From the same place in the same list on everything is common. -/
theorem commonPrefix_self (i n : Nat) : commonPrefix a a i n i n = n - i := by
  induction hk : n - i generalizing i with
  | zero => rw [commonPrefix, if_neg fun h => absurd h.1 (by omega)]
  | succ k ih => rw [commonPrefix, if_pos ⟨by omega, by omega, rfl⟩, ih _ (by omega), Nat.add_comm]

/-- The script of a list and itself keeps everything. -/
theorem script_self : script a a = keepRun 0 0 a.size := by
  have hnone : commonSuffix a a a.size a.size a.size a.size = 0 := by
    cases a.size with
    | zero => rfl
    | succ n => rw [commonSuffix, if_neg fun h => absurd h.1 (Nat.not_succ_le_self n)]
  obtain ⟨p, s, between, hp, hs, hsolve, hbetween⟩ := exists_solve_eq a a ⟨0, a.size, 0, a.size⟩
  obtain rfl : p = a.size := hp.trans (commonPrefix_self 0 a.size)
  obtain rfl : s = 0 := by simpa only [Nat.zero_add, hnone] using hs
  have hinner : Box.shrink ⟨0, a.size, 0, a.size⟩ a.size 0 = ⟨a.size, a.size, a.size, a.size⟩ := by
    simp only [Box.shrink, Nat.zero_add, Nat.sub_zero]
  have hempty : between = [] := by
    rw [hinner] at hbetween
    obtain rfl | ⟨x, y, hsplits, -⟩ := hbetween
    · simp only [replaceAll, Box.rows, Box.columns, Nat.sub_self, if_pos, List.append_nil]
    · simp only [Box.splitsAt, Bool.and_eq_true, decide_eq_true_eq] at hsplits
      omega
  rw [script, hsolve, hempty, List.append_nil]
  exact List.append_nil _

end Solving

end ChangeImpact.Diff
