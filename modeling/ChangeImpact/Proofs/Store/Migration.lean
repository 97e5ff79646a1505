import ChangeImpact.Proofs.Settings
import ChangeImpact.Proofs.Store.Connection
import ChangeImpact.Proofs.Store.Intact
import ChangeImpact.Store.Migration
import Mathlib.Logic.Function.Iterate

/-!
# Migration

A run of the migration climbs from the stored version by successful steps. It ends at the
current version, or at a step that fails and of which nothing but its note is left.
Later runs start from the version that is stored then.
-/

namespace ChangeImpact.Catalog

open Script

/-! ## The loop -/

theorem migrateFrom_of_ok {source : Int} {c next : Catalog} (h : source < currentVersion)
    (hstep : c.step source = .ok next) : c.migrateFrom source = next.migrateFrom (source + 1) := by
  rw [migrateFrom, if_pos h, hstep]

theorem migrateFrom_of_error {source : Int} {c : Catalog} {e : Failure}
    (h : source < currentVersion) (hstep : c.step source = .error e) :
    c.migrateFrom source = (.error e, c.noteFailure source e) := by
  rw [migrateFrom, if_pos h, hstep]

theorem migrateFrom_of_not_lt {source : Int} {c : Catalog} (h : ¬source < currentVersion) :
    c.migrateFrom source = (.ok (), c) := by
  rw [migrateFrom, if_neg h]

/-! ## Savepoints -/

theorem performs_upgradeScript (target : Int) :
    Performs (upgradeScript target) (silently (·.upgrade target)) := by
  rw [upgradeScript]
  split
  · rename_i h
    have hbranch (isThere : Bool) : Performs
        (if isThere then pure () else write (·.appendImpactColumn "auto_confirmed"))
        (silently fun c : Catalog =>
          if isThere then .ok c else c.appendImpactColumn "auto_confirmed") := by
      cases isThere with
      | true => exact performs_pure ()
      | false => exact performs_write _
    refine ((performs_statement _).bind hbranch).congr fun c => ?_
    rw [silently, upgrade, if_pos h]
    rfl
  · split
    · rename_i h₂ h₃
      refine ((performs_write _).seq (performs_write _)).congr fun c => ?_
      rw [silently, silently, upgrade, if_neg h₂, if_pos h₃]
    · rename_i h₂ h₃
      refine (performs_pure ()).congr fun c => ?_
      rw [silently, upgrade, if_neg h₂, if_neg h₃]
      rfl

theorem performs_stepScript (source : Int) :
    Performs (stepScript source) (silently (·.step source)) :=
  (performs_upgradeScript _).seq ((performs_write _).seq (performs_write _))

/-- What a failed step did is taken back, and its note is all that is left. -/
theorem exec_failScript (source : Int) (e : Failure) (c : Connection Catalog) (t : Catalog) :
    exec (failScript source e) ⟨c.stored, t :: c.copies⟩ =
      (.error e, c.put (c.seen.noteFailure source e)) := by
  have hundo : exec (attempt undo) ⟨c.stored, t :: c.copies⟩ = (.ok (), c.opened) := rfl
  have hcommit : exec (attempt commit) c.opened = (.ok (), c) :=
    congrArg (Except.ok (), ·) c.put_seen
  rw [failScript, exec_bind_of_ok hundo, exec_bind_of_ok hcommit,
    exec_bind_of_ok (exec_attempt c _), noteFailure]
  cases hr : c.seen.record { source, target := source + 1, failure := some e } with
  | ok noted =>
    rw [exec_write_of_ok hr]
    rfl
  | error e' =>
    rw [exec_write_of_error hr, c.put_seen]
    rfl

/-- Statement by statement, with a savepoint for each step, the migration does what the steps
do as a whole. -/
theorem exec_migrationFrom (source : Int) (c : Catalog) :
    ∀ conn : Connection Catalog, conn.seen = c →
      exec (migrationFrom source) conn =
        ((c.migrateFrom source).1, conn.put (c.migrateFrom source).2) := by
  induction source, c using migrateFrom.induct with
  | case1 source c h next hstep ih =>
    rintro conn rfl
    have hdone : exec (stepScript source) conn.opened =
        (.ok (), ⟨conn.stored, next :: conn.copies⟩) :=
      (performs_stepScript source).ok (silently_of_ok hstep)
    have hcaught : exec (tryCatch (do stepScript source; commit) (failScript source))
        conn.opened = (.ok (), conn.put next) := by
      rw [exec_tryCatch, exec_bind_of_ok hdone]
      rfl
    rw [migrationFrom, if_pos h, exec_bind_of_ok (exec_start conn), exec_bind_of_ok hcaught,
      ih _ (conn.seen_put next), conn.put_put, migrateFrom_of_ok h hstep]
  | case2 source c h e hstep =>
    rintro conn rfl
    obtain ⟨t, hdone⟩ : ∃ t, exec (stepScript source) conn.opened =
        (.error e, ⟨conn.stored, t :: conn.copies⟩) :=
      (performs_stepScript source).error (silently_of_error hstep)
    have hcaught : exec (tryCatch (do stepScript source; commit) (failScript source))
        conn.opened = (.error e, conn.put (conn.seen.noteFailure source e)) := by
      rw [exec_tryCatch, exec_bind_of_error hdone]
      exact exec_failScript source e conn t
    rw [migrationFrom, if_pos h, exec_bind_of_ok (exec_start conn), exec_bind_of_error hcaught,
      migrateFrom_of_error h hstep]
  | case3 source c h =>
    rintro conn rfl
    rw [migrationFrom, if_neg h, migrateFrom_of_not_lt h, conn.put_seen]
    rfl

theorem run_migration (c : Catalog) : run migration c = c.migrate := by
  have hask : exec (ask fun c => .ok c.version) ⟨c, []⟩ = (.ok c.version, ⟨c, []⟩) :=
    exec_statement_of_ok (c := ⟨c, []⟩) rfl
  rw [run, migration, exec_bind_of_ok hask, exec_migrationFrom c.version c ⟨c, []⟩ rfl]
  rfl

/-! ## Versions -/

variable {c d : Catalog} {source target : Int}

/-- A version is a number of 32 bits. -/
theorem version_bounds (c : Catalog) : -2147483648 ≤ c.version ∧ c.version < 2147483648 := by
  rw [version]
  cases h : (c.facts.bind id).bind (Settings.signed? 31) with
  | none => decide
  | some n =>
    obtain ⟨text, -, ht⟩ := Option.bind_eq_some_iff.mp h
    exact Settings.bounds_of_signed? ht

/-- A version that was stored is read back. -/
theorem version_eq (h : d.facts = some (some (toString target))) (hlow : -2147483648 ≤ target)
    (hhigh : target < 2147483648) : d.version = target := by
  have hread : Settings.signed? 31 (toString target) = some target :=
    Settings.signed?_toString hlow hhigh
  rw [version, h]
  change ((Settings.signed? 31 (toString target)).getD 0) = target
  rw [hread]
  rfl

/-! ## Steps -/

theorem addImpactColumn_ok {name : String} (h : c.addImpactColumn name = .ok d) :
    d.facts = c.facts ∧ d.history = c.history := by
  rw [addImpactColumn] at h
  split at h
  · cases h
    exact ⟨rfl, rfl⟩
  · rw [appendImpactColumn] at h
    split at h
    · split at h
      · cases h
      · cases h
        exact ⟨rfl, rfl⟩
    · cases h

theorem addImpactIndex_ok {name : String} {columns : List String}
    (h : c.addImpactIndex name columns = .ok d) : d.facts = c.facts ∧ d.history = c.history := by
  rw [addImpactIndex] at h
  split at h
  · split at h
    · cases h
      exact ⟨rfl, rfl⟩
    · split at h
      · cases h
        exact ⟨rfl, rfl⟩
      · cases h
  · cases h

/-- An upgrade touches neither the version nor the history. -/
theorem upgrade_ok (h : c.upgrade target = .ok d) :
    d.facts = c.facts ∧ d.history = c.history := by
  rw [upgrade] at h
  split at h
  · exact addImpactColumn_ok h
  · split at h
    · obtain ⟨u, hu, hd⟩ := Store.bind_eq_ok.mp h
      obtain ⟨hfacts, hhistory⟩ := addImpactIndex_ok hu
      obtain ⟨hfacts', hhistory'⟩ := addImpactIndex_ok hd
      exact ⟨hfacts'.trans hfacts, hhistory'.trans hhistory⟩
    · cases h
      exact ⟨rfl, rfl⟩

/-- A successful step stores its version and notes itself. -/
theorem step_ok (h : c.step source = .ok d) :
    d.facts = some (some (toString (source + 1))) ∧
      d.history = c.history.map (· ++ [{ source := source, target := source + 1 }]) := by
  obtain ⟨u, hu, h⟩ := Store.bind_eq_ok.mp h
  obtain ⟨v, hv, hd⟩ := Store.bind_eq_ok.mp h
  obtain ⟨-, hhistory⟩ := upgrade_ok hu
  rw [setVersion] at hv
  split at hv
  · cases hv
    rw [record] at hd
    split at hd
    · rename_i rows hrows
      cases hd
      rw [← hhistory, show u.history = some rows from hrows]
      exact ⟨rfl, rfl⟩
    · cases hd
  · cases hv

/-- The note of a failed step. -/
def failed (source : Int) (e : Failure) : MigrationRecord :=
  { source := source, target := source + 1, failure := some e }

theorem noteFailure_eq (c : Catalog) (source : Int) (e : Failure) :
    c.noteFailure source e = { c with history := c.history.map (· ++ [failed source e]) } := by
  obtain ⟨facts, history⟩ := c
  cases history <;> rfl

/-- One database comes from another by successful steps, from version to version below the
current one. -/
inductive Climbs : Int → Catalog → Int → Catalog → Prop
  | stay (version : Int) (c : Catalog) : Climbs version c version c
  | step {source target : Int} {c next d : Catalog} (hsource : source < currentVersion)
      (hstep : c.step source = .ok next) (hnext : Climbs (source + 1) next target d) :
      Climbs source c target d

/-- The notes of the successful steps from one version to another. -/
def successes (source target : Int) : List MigrationRecord :=
  (List.range (target - source).toNat).map fun k : Nat =>
    { source := source + k, target := source + k + 1 }

theorem successes_self (version : Int) : successes version version = [] := by
  rw [successes, Int.sub_self]
  rfl

theorem successes_cons (h : source < target) : successes source target =
    { source := source, target := source + 1 } :: successes (source + 1) target := by
  have hn : (target - source).toNat = (target - (source + 1)).toNat + 1 := by omega
  have hk (k : Nat) : source + ((k + 1 : Nat) : Int) = source + 1 + k := by omega
  rw [successes, successes, hn, List.range_succ_eq_map, List.map_cons, List.map_map]
  simp only [Function.comp_def, hk]
  simp

namespace Climbs

theorem le (h : Climbs source c target d) : source ≤ target := by
  induction h with
  | stay => exact Int.le_refl _
  | step _ _ _ ih => omega

theorem le_max (h : Climbs source c target d) : target ≤ max source currentVersion := by
  induction h with
  | stay => exact Int.le_max_left ..
  | step hsource _ _ ih => omega

/-- The version is the one of the last step. -/
theorem version (h : Climbs source c target d) (hsource : c.version = source) :
    d.version = target := by
  induction h with
  | stay => exact hsource
  | @step source target c next d hs hstep _ ih =>
    apply ih
    have hlow := (version_bounds c).1
    rw [currentVersion] at hs
    exact version_eq (step_ok hstep).1 (by omega) (by omega)

/-- The history, if there is one, goes on with one note for each step. -/
theorem history (h : Climbs source c target d) :
    d.history = c.history.map (· ++ successes source target) := by
  induction h with
  | stay v c =>
    rw [successes_self]
    simp
  | @step source target c next d _ hstep hnext ih =>
    have hlt : source < target := by
      have := hnext.le
      omega
    rw [ih, (step_ok hstep).2, Option.map_map, successes_cons hlt]
    simp [Function.comp_def]

end Climbs

/-! ## Runs -/

/-- A run climbs as far as it can. -/
theorem migrateFrom_climbs (source : Int) (c : Catalog) :
    ∃ reached last, Climbs source c reached last ∧
      (currentVersion ≤ reached ∧ c.migrateFrom source = (.ok (), last) ∨
        ∃ e, reached < currentVersion ∧ last.step reached = .error e ∧
          c.migrateFrom source = (.error e, last.noteFailure reached e)) := by
  induction source, c using migrateFrom.induct with
  | case1 source c h next hstep ih =>
    obtain ⟨reached, last, hclimbs, hend⟩ := ih
    rw [migrateFrom_of_ok h hstep]
    exact ⟨reached, last, .step h hstep hclimbs, hend⟩
  | case2 source c h e hstep =>
    exact ⟨source, c, .stay source c, .inr ⟨e, h, hstep, migrateFrom_of_error h hstep⟩⟩
  | case3 source c h =>
    exact ⟨source, c, .stay source c, .inl ⟨Int.not_lt.mp h, migrateFrom_of_not_lt h⟩⟩

/-- A run ends at the current version, or at a step that fails and leaves but its note. -/
theorem run_climbs (c : Catalog) :
    ∃ reached last, Climbs c.version c reached last ∧
      (currentVersion ≤ reached ∧ run migration c = (.ok (), last) ∨
        ∃ e, reached < currentVersion ∧ last.step reached = .error e ∧
          run migration c =
            (.error e, { last with history := last.history.map (· ++ [failed reached e]) })) := by
  obtain ⟨reached, last, hclimbs, hend⟩ := migrateFrom_climbs c.version c
  refine ⟨reached, last, hclimbs, ?_⟩
  simpa only [run_migration, migrate, ← noteFailure_eq] using hend

/-- No run makes a version go down. -/
theorem version_le_run (c : Catalog) : c.version ≤ (run migration c).2.version := by
  obtain ⟨reached, last, hclimbs, ⟨-, hrun⟩ | ⟨e, -, -, hrun⟩⟩ := run_climbs c
  · rw [hrun, hclimbs.version rfl]
    exact hclimbs.le
  · rw [hrun]
    exact (hclimbs.version rfl).symm ▸ hclimbs.le

/-- At the current version and above it there is nothing to do. -/
theorem run_migration_of_le (h : currentVersion ≤ c.version) : run migration c = (.ok (), c) := by
  rw [run_migration, migrate, migrateFrom_of_not_lt (Int.not_lt.mpr h)]

/-- The database after some runs of the migration, whether they succeed or not. -/
def afterRuns (n : Nat) (c : Catalog) : Catalog :=
  (fun c => (run migration c).2)^[n] c

theorem version_le_afterRuns (n : Nat) (c : Catalog) : c.version ≤ (afterRuns n c).version := by
  induction n generalizing c with
  | zero => exact Int.le_refl _
  | succ n ih => exact Int.le_trans (version_le_run c) (ih (run migration c).2)

theorem afterRuns_of_le (h : currentVersion ≤ c.version) (n : Nat) : afterRuns n c = c := by
  apply Function.iterate_fixed
  rw [run_migration_of_le h]

/-- However often a database was migrated before, the next run climbs from the stored version
by single steps, noting each of them if there is a history. Either it succeeds, the version
is the current one unless it was higher, and every later run changes nothing. Or some step
below the current version fails, and apart from a note of that everything is as the step
before left it. In no case does the version go down. -/
theorem migration_runs (c : Catalog) (n : Nat) :
    let s := afterRuns n c
    c.version ≤ s.version ∧ s.version ≤ (run migration s).2.version ∧
      ∃ reached last, Climbs s.version s reached last ∧ last.version = reached ∧
        last.history = s.history.map (· ++ successes s.version reached) ∧
        (run migration s = (.ok (), last) ∧ reached = max s.version currentVersion ∧
            (∀ m, run migration (afterRuns m last) = (.ok (), last)) ∨
          ∃ e, reached < currentVersion ∧ last.step reached = .error e ∧
            run migration s =
              (.error e, { last with history := last.history.map (· ++ [failed reached e]) })) := by
  intro s
  refine ⟨version_le_afterRuns n c, version_le_run s, ?_⟩
  obtain ⟨reached, last, hclimbs, hend⟩ := run_climbs s
  have hversion := hclimbs.version rfl
  refine ⟨reached, last, hclimbs, hversion, hclimbs.history, ?_⟩
  rcases hend with ⟨hreached, hrun⟩ | hfailed
  · have hcurrent : currentVersion ≤ last.version := hversion ▸ hreached
    have hmax : reached = max s.version currentVersion :=
      Int.le_antisymm hclimbs.le_max (Int.max_le.mpr ⟨hclimbs.le, hreached⟩)
    refine .inl ⟨hrun, hmax, fun m => ?_⟩
    rw [afterRuns_of_le hcurrent, run_migration_of_le hcurrent]
  · exact .inr hfailed

-- The first of two steps succeeds; the second one misses the columns of its indexes.
example :
    run migration
        { facts := some (some "1"), history := some [], impactColumns := some ["id"] } =
      (.error .unreadable,
        { facts := some (some "2")
          history := some [{ source := 1, target := 2 },
            { source := 2, target := 3, failure := some .unreadable }]
          impactColumns := some ["id", "auto_confirmed"] }) := by
  decide +kernel

end ChangeImpact.Catalog
