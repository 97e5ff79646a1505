import ChangeImpact.Store.Connection
import ChangeImpact.Store.Schema

/-!
# Migration statement by statement

Each step of a migration has a savepoint. The step ends with its release; when a
statement fails before that, or the release does, what the step did is taken back,
the savepoint is released, and the failure is noted if that can be done.
-/

namespace ChangeImpact.Catalog

open Script

/-- The statements that lead to a version from the one before it. -/
def upgradeScript (target : Int) : Script Catalog Unit :=
  if target = 2 then do
    let isThere ← ask fun c => .ok (c.hasImpactColumn "auto_confirmed")
    if isThere then pure () else write (·.appendImpactColumn "auto_confirmed")
  else if target = 3 then do
    write (·.addImpactIndex "idx_impacts_change" ["change_request_id"])
    write (·.addImpactIndex "idx_impacts_unresolved" ["acknowledged", "dismissed"])
  else pure ()

/-- What one step does: the upgrade, its version and its note. -/
def stepScript (source : Int) : Script Catalog Unit := do
  upgradeScript (source + 1)
  write (·.setVersion (source + 1))
  write (·.record { source, target := source + 1 })

/-- Take a failed step back, note it and fail. -/
def failScript (source : Int) (e : Failure) : Script Catalog Unit := do
  attempt undo
  attempt commit
  attempt (write (·.record { source, target := source + 1, failure := some e }))
  throw e

/-- Migrate from a version to the current one. -/
def migrationFrom (source : Int) : Script Catalog Unit :=
  if source < currentVersion then do
    start
    tryCatch (do stepScript source; commit) (failScript source)
    migrationFrom (source + 1)
  else pure ()
termination_by (currentVersion - source).toNat
decreasing_by
  simp only [currentVersion] at *
  omega

/-- Migrate from the stored version to the current one. -/
def migration : Script Catalog Unit := do
  let version ← ask fun c => .ok c.version
  migrationFrom version

end ChangeImpact.Catalog
