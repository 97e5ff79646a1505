import ChangeImpact.Graph.Edge
import ChangeImpact.Records
import ChangeImpact.Store.Schema

/-!
# The store

The tables of a review system. Each table is a list of rows in the order in
which they were inserted. Some columns hold text that has a form of its own, and
someone else may have written a text there that has no meaning; reading such a
row fails, while everything that does not read it goes on.
-/

namespace ChangeImpact

/-- A column whose text has to be read. -/
inductive Column where
  | strictness
  | componentStatus
  | symbols
  | changeStatus
  | detectionMethod
  | affectedLines
  | comment
deriving DecidableEq, Repr

/-- A column of one row. -/
structure Cell where
  /-- The column. -/
  column : Column
  /-- The identifier of the row. -/
  row : String
deriving DecidableEq, Repr

/-- An edge in the graph of a project. -/
structure StoredEdge where
  /-- The project. -/
  project : String
  /-- The edge. -/
  edge : DependencyEdge
deriving DecidableEq

/-- An import that leads out of a project. -/
structure StoredExternal where
  /-- The project. -/
  project : String
  /-- The import. -/
  dependency : ExternalDependency
deriving DecidableEq, Repr

/-- A file in a snapshot. -/
structure StoredSnapshotFile where
  /-- The snapshot. -/
  snapshot : String
  /-- The file. -/
  file : SnapshotFile
deriving DecidableEq, Repr

/-- Everything that is stored but the content of files. -/
structure Store where
  /-- The tables that migration looks at. -/
  schema : Catalog := Catalog.fresh
  /-- The projects. -/
  projects : List Project := []
  /-- The components. -/
  components : List Component := []
  /-- The contributors. -/
  contributors : List Contributor := []
  /-- The files. -/
  files : List ProjectFile := []
  /-- The drafts. -/
  drafts : List Draft := []
  /-- The edges. -/
  edges : List StoredEdge := []
  /-- The imports that lead out. -/
  external : List StoredExternal := []
  /-- The change requests. -/
  requests : List ChangeRequest := []
  /-- The impacts. -/
  impacts : List Impact := []
  /-- The snapshots. -/
  snapshots : List Snapshot := []
  /-- The files of the snapshots. -/
  snapshotFiles : List StoredSnapshotFile := []
  /-- The cells whose text has no meaning. -/
  damaged : List Cell := []

namespace Store

/-- Go on if a condition holds. -/
def demand (condition : Bool) (otherwise : Failure) : Except Failure Unit :=
  if condition then .ok () else .error otherwise

/-- The rows with those changed that satisfy `p`. -/
def updateWhere {α : Type} (p : α → Bool) (f : α → α) (rows : List α) : List α :=
  rows.map fun r => if p r then f r else r

/-- Whether the given columns of a row can be read. -/
def isReadable (s : Store) (columns : List Column) (row : String) : Bool :=
  columns.all fun c => !s.damaged.contains ⟨c, row⟩

/-- Rows that are being read. -/
def readRows {α : Type} (s : Store) (columns : List Column) (id : α → String) (rows : List α) :
    Except Failure (List α) :=
  if rows.all fun r => s.isReadable columns (id r) then .ok rows else .error .unreadable

/-- The first of some rows that are being read. -/
def readFirst {α : Type} (s : Store) (columns : List Column) (id : α → String)
    (row : Option α) : Except Failure (Option α) :=
  match row with
  | none => .ok none
  | some r => if s.isReadable columns (id r) then .ok (some r) else .error .unreadable

/-- The store after a column was written in the rows that satisfy `p`. -/
def mend (s : Store) (column : Column) (p : String → Bool) : Store :=
  { s with damaged := s.damaged.filter fun c => c.column ≠ column || !p c.row }

end Store

end ChangeImpact
