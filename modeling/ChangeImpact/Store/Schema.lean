import ChangeImpact.Failure
import ChangeImpact.Ordered
import ChangeImpact.Settings

/-!
# Schema and migration

A database tells the version of its schema. Migration goes from there to the
current version in single steps. A step that fails leaves nothing behind but a
note in the history, if there is one.
-/

namespace ChangeImpact

/-- A migration step that was tried. -/
structure MigrationRecord where
  /-- The version before the step. -/
  source : Int
  /-- The version that the step leads to. -/
  target : Int
  /-- Why it failed, if it did. -/
  failure : Option Failure := none
deriving DecidableEq, Repr

/-- The outcome of a step in one word. -/
def MigrationRecord.status (r : MigrationRecord) : String :=
  if r.failure.isSome then "failed" else "success"

/-- The tables that migration reads and changes. -/
structure Catalog where
  /-- The table of general facts with the text of the version, if there is such a table. -/
  facts : Option (Option String) := none
  /-- The table of tried steps, the earliest first. -/
  history : Option (List MigrationRecord) := none
  /-- The columns of the table of impacts. -/
  impactColumns : Option (List String) := none
  /-- The indexes on the table of impacts, ascending. -/
  impactIndexes : List String := []
deriving DecidableEq, Repr

namespace Catalog

/-- The current version of the schema. -/
def currentVersion : Int := 3

/-- The columns of impacts in the current schema. -/
def impactColumnNames : List String :=
  ["id", "change_request_id", "component_id", "contributor_id", "detection_method",
    "confidence", "affected_lines", "acknowledged", "dismissed", "auto_confirmed",
    "acknowledged_at", "llm_annotation", "created_at"]

/-- The catalog with the tables that are missing. -/
def createTables (c : Catalog) : Catalog :=
  { c with
    facts := some (c.facts.getD none)
    history := some (c.history.getD [])
    impactColumns := some (c.impactColumns.getD impactColumnNames) }

/-- The version of the schema, 0 when it is missing or no number of 32 bits. -/
def version (c : Catalog) : Int :=
  ((c.facts.bind id).bind (Settings.signed? 31)).getD 0

/-- Store the version. -/
def setVersion (version : Int) (c : Catalog) : Except Failure Catalog :=
  match c.facts with
  | some _ => .ok { c with facts := some (some (toString version)) }
  | none => .error .unreadable

/-- Note a step in the history. -/
def record (r : MigrationRecord) (c : Catalog) : Except Failure Catalog :=
  match c.history with
  | some h => .ok { c with history := some (h ++ [r]) }
  | none => .error .unreadable

/-- Whether two names stand for the same column or index. The case of ASCII letters does
not count. -/
def sameName (a b : String) : Bool := Text.asciiLower a = Text.asciiLower b

/-- How many columns a table can have. -/
def columnLimit : Nat := 2000

/-- Whether the impacts list a column in exactly this spelling. -/
def hasImpactColumn (name : String) (c : Catalog) : Bool :=
  (c.impactColumns.getD []).contains name

/-- Append a column to the impacts. -/
def appendImpactColumn (name : String) (c : Catalog) : Except Failure Catalog :=
  match c.impactColumns with
  | some columns =>
    if columns.any (sameName name) || columnLimit ≤ columns.length then .error .unreadable
    else .ok { c with impactColumns := some (columns ++ [name]) }
  | none => .error .unreadable

/-- Add a column to the impacts unless they list it. -/
def addImpactColumn (name : String) (c : Catalog) : Except Failure Catalog :=
  if c.hasImpactColumn name then .ok c else c.appendImpactColumn name

/-- Make an index over some columns of the impacts unless it is there. -/
def addImpactIndex (name : String) (columns : List String) (c : Catalog) :
    Except Failure Catalog :=
  match c.impactColumns with
  | some present =>
    if c.impactIndexes.any (sameName name) then .ok c
    else if columns.all fun column => present.any (sameName column) then
      .ok { c with impactIndexes := Ordered.insert name c.impactIndexes }
    else .error .unreadable
  | none => .error .unreadable

/-- What has to be done to reach a version from the one before it. -/
def upgrade (target : Int) (c : Catalog) : Except Failure Catalog :=
  if target = 2 then c.addImpactColumn "auto_confirmed"
  else if target = 3 then do
    let c ← c.addImpactIndex "idx_impacts_change" ["change_request_id"]
    c.addImpactIndex "idx_impacts_unresolved" ["acknowledged", "dismissed"]
  else .ok c

/-- One migration step from a version to the next. -/
def step (source : Int) (c : Catalog) : Except Failure Catalog := do
  let c ← c.upgrade (source + 1)
  let c ← c.setVersion (source + 1)
  c.record { source, target := source + 1 }

/-- What remains of a failed step: its note, if there is a history. -/
def noteFailure (source : Int) (e : Failure) (c : Catalog) : Catalog :=
  match c.record { source, target := source + 1, failure := some e } with
  | .ok noted => noted
  | .error _ => c

/-- Migrate from a version to the current one. -/
def migrateFrom (source : Int) (c : Catalog) : Except Failure Unit × Catalog :=
  if source < currentVersion then
    match c.step source with
    | .ok next => migrateFrom (source + 1) next
    | .error e => (.error e, c.noteFailure source e)
  else (.ok (), c)
termination_by (currentVersion - source).toNat
decreasing_by
  simp only [currentVersion] at *
  omega

/-- Migrate from the stored version to the current one. -/
def migrate (c : Catalog) : Except Failure Unit × Catalog :=
  c.migrateFrom c.version

/-- The catalog of a database of the current version. -/
def fresh : Catalog := ({} : Catalog).createTables.migrate.2

end Catalog

end ChangeImpact
