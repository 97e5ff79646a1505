import ChangeImpact.Diff.Settle
import ChangeImpact.Proofs.Diff.Script

/-!
# Settling keeps what a script does

Each move of a pass exchanges a few neighbouring edits for others that lead to the same places:
an insertion slides over kept lines that are equal to its own, neighbours of different kinds
change places, and neighbours of one kind join. So the settled script leads where the script
does.
-/

namespace ChangeImpact.Diff

/-- The script that a place is in. -/
def Place.edits (p : Place) : List Edit := p.before.reverse ++ p.here :: p.after

section Moves

variable {a b : Array String} {e prev here next : Edit} {es before after : List Edit}
  {p q : Nat × Nat} {t : Nat}

theorem edits_cons_before :
    (⟨prev :: before, here, after⟩ : Place).edits = before.reverse ++ ([prev, here] ++ after) := by
  rw [Place.edits, List.reverse_cons, List.append_assoc]
  rfl

theorem edits_cons_after :
    (⟨before, here, next :: after⟩ : Place).edits = before.reverse ++ ([here, next] ++ after) :=
  rfl

/-! ## One move -/

/-- Two edits of different kinds, none of which keeps lines, change places. -/
theorem swap_runs (h : ScriptRuns a b [prev, here] p q) (hprev : prev.action ≠ .keep)
    (hhere : here.action ≠ .keep) (hne : prev.action ≠ here.action) :
    ScriptRuns a b [here, prev] p q := by
  obtain ⟨m, hfirst, h⟩ := path_cons.mp h
  cases path_singleton.mp h with
  | keep => exact absurd rfl hhere
  | delete =>
    cases hfirst with
    | keep => exact absurd rfl hprev
    | delete => exact absurd rfl hne
    | insert => exact .cons .delete (path_singleton.mpr .insert)
  | insert =>
    cases hfirst with
    | keep => exact absurd rfl hprev
    | delete => exact .cons .insert (path_singleton.mpr .delete)
    | insert => exact absurd rfl hne

/-- Two edits of one kind, which keeps no lines, join. -/
theorem join_runs (h : ScriptRuns a b [prev, here] p q) (hhere : here.action ≠ .keep)
    (heq : prev.action = here.action) : ScriptRuns a b [prev.grow here.length] p q := by
  obtain ⟨m, hfirst, h⟩ := path_cons.mp h
  refine path_singleton.mpr ?_
  cases path_singleton.mp h with
  | keep => exact absurd rfl hhere
  | delete =>
    cases hfirst with
    | delete => exact runs_delete.mpr ⟨rfl, Nat.add_assoc .., rfl⟩
    | keep => cases heq
    | insert => cases heq
  | insert =>
    cases hfirst with
    | insert => exact runs_insert.mpr ⟨rfl, rfl, Nat.add_assoc ..⟩
    | keep => cases heq
    | delete => cases heq

/-- A kept run without lines leads nowhere. -/
theorem eq_of_runs (he : e.action = .keep) (hlength : e.length = 0) (p q : Nat × Nat)
    (h : e.Runs a b p q) : p = q := by
  cases h with
  | keep =>
    cases hlength
    rfl
  | delete => cases he
  | insert => cases he

/-- An insertion slides up over the lines that the kept run before it ends with. -/
theorem slideUp_runs (h : ScriptRuns a b [prev, here] p q) (hprev : prev.action = .keep)
    (ht : slideUp a b prev here = t) (hpos : 0 < t) :
    ScriptRuns a b
      [prev.cutEnd t, here.earlier t, ⟨.keep, prev.oldEnd - t, here.newEnd - t, t⟩] p q := by
  have hhere : here.action = .insert := by
    refine Decidable.byContradiction fun hne => ?_
    rw [slideUp, if_neg hne] at ht
    omega
  obtain ⟨m, hfirst, h⟩ := path_cons.mp h
  cases path_singleton.mp h with
  | keep => cases hhere
  | delete => cases hhere
  | @insert i j old n =>
    cases hfirst with
    | delete => cases hprev
    | insert => cases hprev
    | @keep i j k hkept =>
      obtain ⟨hcommon, -, -, hk, hn⟩ := commonSuffix_spec a b i (j + k) (i + k) (j + k + n)
      change commonSuffix a b i (j + k) (i + k) (j + k + n) = t at ht
      rw [ht] at hcommon hk hn
      have hk := hk (Nat.le_add_right ..)
      have hn := hn (Nat.le_add_right ..)
      refine path_cons.mpr ⟨(i + (k - t), j + (k - t)), .keep (hkept.take (Nat.sub_le ..)),
        path_cons.mpr ⟨(i + (k - t), j + (k - t) + n), ?_, path_singleton.mpr ?_⟩⟩
      · exact runs_insert.mpr ⟨by dsimp only; omega, rfl, rfl⟩
      · have hi : i + (k - t) = i + k - t := by omega
        have hj : j + (k - t) + n = j + k + n - t := by omega
        rw [hi, hj]
        exact runs_keep.mpr ⟨⟨rfl, rfl⟩, hcommon, by omega, by omega⟩

/-- An insertion slides down over the lines that the kept run after it starts with. -/
theorem slideDown_runs (h : ScriptRuns a b [here, next] p q) (hnext : next.action = .keep)
    (ht : slideDown a b next here = t) (hpos : 0 < t) :
    ScriptRuns a b [⟨.keep, next.old, here.new, t⟩, here.later t, next.cutStart t] p q := by
  have hhere : here.action = .insert := by
    refine Decidable.byContradiction fun hne => ?_
    rw [slideDown, if_neg hne] at ht
    omega
  obtain ⟨m, hfirst, h⟩ := path_cons.mp h
  cases path_singleton.mp h with
  | delete => cases hnext
  | insert => cases hnext
  | @keep i j k hkept =>
    cases hfirst with
    | keep => cases hhere
    | delete => cases hhere
    | @insert i j old n =>
      obtain ⟨hcommon, hk, hn⟩ := commonPrefix_spec a b i (i + k) j (j + n)
      change commonPrefix a b i (i + k) j (j + n) = t at ht
      rw [ht] at hcommon hk hn
      have hk := hk (Nat.le_add_right ..)
      have hn := hn (Nat.le_add_right ..)
      refine path_cons.mpr ⟨(i + t, j + t), .keep hcommon,
        path_cons.mpr ⟨(i + t, j + t + n), ?_, path_singleton.mpr ?_⟩⟩
      · exact runs_insert.mpr ⟨rfl, rfl, rfl⟩
      · have hj : j + t + n = j + n + t := by omega
        rw [hj]
        refine runs_keep.mpr ⟨⟨rfl, rfl⟩, hkept.drop (by omega), ?_, ?_⟩ <;> dsimp only <;> omega

/-- A kept run joins the one after it. -/
theorem keepBefore_runs {i j : Nat} (h : ScriptRuns a b (⟨.keep, i - t, j - t, t⟩ :: es) p q) :
    ScriptRuns a b (keepBefore t i j es) p q := by
  cases es with
  | nil => exact h
  | cons e es =>
    rw [keepBefore]
    split
    · rename_i he
      obtain ⟨m, hfirst, h⟩ := path_cons.mp h
      obtain ⟨m', hsecond, hrest⟩ := path_cons.mp h
      refine path_cons.mpr ⟨m', ?_, hrest⟩
      cases hsecond with
      | delete => cases he
      | insert => cases he
      | keep hafter =>
        obtain ⟨i', j'⟩ := p
        obtain ⟨⟨rfl, rfl⟩, hbefore, rfl, rfl⟩ := runs_keep.mp hfirst
        refine runs_keep.mpr ⟨⟨Nat.add_sub_cancel .., Nat.add_sub_cancel ..⟩, ?_, ?_, ?_⟩
        · rw [Nat.add_comm, shared_add]
          exact ⟨hbefore, hafter⟩
        · exact (Nat.add_assoc ..).trans (congrArg _ (Nat.add_comm ..))
        · exact (Nat.add_assoc ..).trans (congrArg _ (Nat.add_comm ..))
    · exact h

/-- A kept run joins the one before it. -/
theorem keepAfter_runs {i j : Nat} (h : ScriptRuns a b (⟨.keep, i, j, t⟩ :: es).reverse p q) :
    ScriptRuns a b (keepAfter t i j es).reverse p q := by
  cases es with
  | nil => exact h
  | cons e es =>
    rw [keepAfter]
    split
    · rename_i he
      rw [List.reverse_cons, List.reverse_cons, List.append_assoc] at h
      rw [List.reverse_cons]
      obtain ⟨m, hrest, h⟩ := path_append.mp h
      refine hrest.append (path_singleton.mpr ?_)
      obtain ⟨m', hfirst, hsecond⟩ := path_cons.mp h
      cases hfirst with
      | delete => cases he
      | insert => cases he
      | keep hbefore =>
        obtain ⟨i', j'⟩ := q
        obtain ⟨⟨rfl, rfl⟩, hafter, rfl, rfl⟩ := runs_keep.mp (path_singleton.mp hsecond)
        exact runs_keep.mpr ⟨⟨rfl, rfl⟩, shared_add.mpr ⟨hbefore, hafter⟩, Nat.add_assoc ..,
          Nat.add_assoc ..⟩
    · exact h

/-- What is left of a kept run before an edit can be left out when it has no lines. -/
theorem restBefore_runs (he : e.action = .keep)
    (h : ScriptRuns a b (before.reverse ++ (e :: es)) p q) :
    ScriptRuns a b ((if e.length = 0 then before else e :: before).reverse ++ es) p q := by
  split
  · rename_i hlength
    exact h.leaveOut (eq_of_runs he hlength)
  · rwa [List.reverse_cons, List.append_assoc]

/-- What is left of a kept run after an edit can be left out when it has no lines. -/
theorem restAfter_runs (he : e.action = .keep) (h : ScriptRuns a b (e :: es) p q) :
    ScriptRuns a b (if e.length = 0 then es else e :: es) p q := by
  split
  · rename_i hlength
    obtain ⟨m, hstep, hrest⟩ := path_cons.mp h
    exact eq_of_runs he hlength _ _ hstep ▸ hrest
  · exact h

/-! ## Moves -/

/-- Sliding the current edit up keeps what the script does. -/
theorem slidUp_runs (hprev : prev.action = .keep) (ht : slideUp a b prev here = t) (hpos : 0 < t)
    (h : ScriptRuns a b (Place.edits ⟨prev :: before, here, after⟩) p q) :
    ScriptRuns a b (Place.edits
      ⟨if (prev.cutEnd t).length = 0 then before else prev.cutEnd t :: before, here.earlier t,
        keepBefore t prev.oldEnd here.newEnd after⟩) p q := by
  rw [edits_cons_before] at h
  have hslid := h.exchange fun _ _ h => slideUp_runs h hprev ht hpos
  have hsplit : before.reverse ++ ([prev.cutEnd t, here.earlier t,
      ⟨.keep, prev.oldEnd - t, here.newEnd - t, t⟩] ++ after) =
      (before.reverse ++ [prev.cutEnd t, here.earlier t]) ++
        (⟨.keep, prev.oldEnd - t, here.newEnd - t, t⟩ :: after) := by
    rw [List.append_assoc]
    rfl
  rw [hsplit] at hslid
  have hkept := hslid.exchangeEnd fun _ _ => keepBefore_runs
  rw [List.append_assoc] at hkept
  exact restBefore_runs hprev hkept

/-- Sliding the current edit down keeps what the script does. -/
theorem slidDown_runs (hnext : next.action = .keep) (ht : slideDown a b next here = t)
    (hpos : 0 < t) (h : ScriptRuns a b (Place.edits ⟨before, here, next :: after⟩) p q) :
    ScriptRuns a b (Place.edits
      ⟨keepAfter t next.old here.new before, here.later t,
        if (next.cutStart t).length = 0 then after else next.cutStart t :: after⟩) p q := by
  rw [edits_cons_after] at h
  have hslid := h.exchange fun _ _ h => slideDown_runs h hnext ht hpos
  have hsplit : before.reverse ++ ([⟨.keep, next.old, here.new, t⟩, here.later t,
      next.cutStart t] ++ after) =
      (⟨.keep, next.old, here.new, t⟩ :: before).reverse ++
        (here.later t :: next.cutStart t :: after) := by
    rw [List.reverse_cons, List.append_assoc]
    rfl
  rw [hsplit] at hslid
  obtain ⟨m, hbefore, hmoved⟩ := path_append.mp hslid
  obtain ⟨m', hstep, hafter⟩ := path_cons.mp hmoved
  exact (keepAfter_runs hbefore).append (path_cons.mpr ⟨m', hstep, restAfter_runs hnext hafter⟩)

/-- A kept run without lines after the current edit can be left out. -/
theorem skipped_runs (hnext : next.action = .keep) (hlength : next.length = 0)
    (h : ScriptRuns a b (Place.edits ⟨before, here, next :: after⟩) p q) :
    ScriptRuns a b (Place.edits ⟨before, here, after⟩) p q := by
  rw [Place.edits, List.append_cons] at h ⊢
  exact h.leaveOut (eq_of_runs hnext hlength)

/-! ## Passes -/

/-- Moving an edit up keeps what the script does. -/
theorem moveUp_runs (fuel : Nat) (hhere : here.action ≠ .keep)
    (h : ScriptRuns a b (Place.edits ⟨before, here, after⟩) p q) :
    (moveUp a b fuel ⟨before, here, after⟩).here.action ≠ .keep ∧
      ScriptRuns a b (moveUp a b fuel ⟨before, here, after⟩).edits p q := by
  induction fuel generalizing before here after with
  | zero => exact ⟨hhere, h⟩
  | succ fuel ih =>
    cases before with
    | nil => exact ⟨hhere, h⟩
    | cons prev before =>
      rw [moveUp]
      dsimp only
      split
      · rename_i hprev
        split
        · rename_i hpos
          exact ih hhere (slidUp_runs hprev rfl hpos h)
        · split
          · rename_i hlength
            rw [edits_cons_before] at h
            exact ih hhere (Path.leaveOut h (eq_of_runs hprev hlength))
          · exact ⟨hhere, h⟩
      · rename_i hprev
        rw [edits_cons_before] at h
        split
        · rename_i heq
          exact ih (heq ▸ hhere) (h.exchange fun _ _ h => join_runs h hhere heq)
        · rename_i hne
          exact ih hhere (h.exchange fun _ _ h => swap_runs h hprev hhere hne)

/-- Moving an edit down keeps what the script does. -/
theorem moveDown_runs (fuel : Nat) (hhere : here.action ≠ .keep)
    (h : ScriptRuns a b (Place.edits ⟨before, here, after⟩) p q) :
    ScriptRuns a b (moveDown a b fuel ⟨before, here, after⟩).edits p q := by
  induction fuel generalizing before here after with
  | zero => exact h
  | succ fuel ih =>
    cases after with
    | nil => exact h
    | cons next after =>
      rw [moveDown]
      dsimp only
      split
      · rename_i hnext
        split
        · rename_i hpos
          exact ih hhere (slidDown_runs hnext rfl hpos h)
        · split
          · rename_i hlength
            exact ih hhere (skipped_runs hnext hlength h)
          · exact h
      · rename_i hnext
        rw [edits_cons_after] at h
        split
        · rename_i heq
          exact ih hhere (h.exchange fun _ _ h => join_runs h hnext heq.symm)
        · rename_i hne
          have hswapped := h.exchange fun _ _ h => swap_runs h hhere hnext (Ne.symm hne)
          refine ih hhere ?_
          rwa [Place.edits, List.reverse_cons, List.append_assoc]

/-- A pass keeps what the script does. -/
theorem settlePass_runs {action : Action} (haction : action ≠ .keep) {fuel : Nat}
    (before : List Edit) (h : ScriptRuns a b (before.reverse ++ es) p q) :
    ScriptRuns a b (settlePass a b action fuel before es) p q := by
  induction fuel generalizing before es with
  | zero => exact h
  | succ fuel ih =>
    cases es with
    | nil => rwa [settlePass, ← List.append_nil before.reverse]
    | cons e es =>
      rw [settlePass]
      split
      · rename_i he
        obtain ⟨hhere, hup⟩ := moveUp_runs (weight before) (he ▸ haction) h
        have hdown := moveDown_runs (weight (moveUp a b (weight before) ⟨before, e, es⟩).after)
          hhere hup
        refine ih _ ?_
        rwa [List.reverse_cons, List.append_assoc]
      · refine ih _ ?_
        rwa [List.reverse_cons, List.append_assoc]

/-- The settled script leads where the script does. -/
theorem settle_runs (h : ScriptRuns a b es p q) : ScriptRuns a b (settle a b es) p q :=
  settlePass_runs (by decide) [] (settlePass_runs (by decide) [] h)

/-- A pass for edits that are not there changes nothing. -/
theorem settlePass_eq {action : Action} {fuel : Nat} (h : ∀ e ∈ es, e.action ≠ action) :
    settlePass a b action fuel before es = before.reverse ++ es := by
  induction fuel generalizing before es with
  | zero => rfl
  | succ fuel ih =>
    cases es with
    | nil => rw [settlePass, List.append_nil]
    | cons e es =>
      rw [settlePass, if_neg (h e (List.mem_cons_self ..)),
        ih fun e' he' => h e' (List.mem_cons_of_mem _ he'), List.reverse_cons, List.append_assoc]
      rfl

/-- A script that keeps everything is settled. -/
theorem settle_eq (h : ∀ e ∈ es, e.action = .keep) : settle a b es = es := by
  have hnot {action : Action} (haction : action ≠ .keep) : ∀ e ∈ es, e.action ≠ action :=
    fun e he => h e he ▸ haction.symm
  simp only [settle, settlePass_eq (hnot (by decide : Action.delete ≠ .keep)), List.reverse_nil,
    List.nil_append]
  exact settlePass_eq (hnot (by decide : Action.insert ≠ .keep))

end Moves

end ChangeImpact.Diff
