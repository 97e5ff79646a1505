import ChangeImpact.Store.Connection
import ChangeImpact.Store.Decisions
import ChangeImpact.Store.Graph
import ChangeImpact.Store.Migration

/-!
# The database

Each operation on the store opens a connection, carries out its statements one
after the other and closes the connection. Operations of several statements do so
in a transaction, which they commit at their end. The statements here touch rows of
one table; confidences are taken to be numbers.
-/

namespace ChangeImpact

namespace Store

/-! ## Statements -/

/-- Replace the symbols of a file. Answers with the number of rows that were written. -/
def writeSymbols (id : String) (symbols : Option ParsedFile) (s : Store) : Nat × Store :=
  let files := updateWhere (·.id = id) (fun f => { f with symbols }) s.files
  (s.files.countP (·.id = id), { s with files }.mend .symbols (· = id))

/-- Give a request a status. Answers with the number of rows that were written. -/
def writeStatus (id : String) (status : ChangeStatus) (now : Instant) (s : Store) :
    Nat × Store :=
  (s.requests.countP (·.id = id), s.updateRequest id fun r => { r with status, updatedAt := now })

/-- Move a request from pending to complete if it is pending. Answers with the number of
rows that were written. -/
def claim (id : String) (now : Instant) (s : Store) : Nat × Store :=
  let isPending (r : ChangeRequest) : Bool := r.id = id && s.statusIs r .pendingAnalysis
  (s.requests.countP isPending,
    { s with
      requests := updateWhere isPending
        (fun r => { r with status := .analysisComplete, updatedAt := now }) s.requests })

/-- Remove the edges that the parser found in a project. -/
def clearEdges (project : String) (s : Store) : Store :=
  { s with edges := s.edges.filter fun e => !(e.project = project && e.edge.method = .parser) }

/-- Remove the imports that lead out of a project. -/
def clearExternal (project : String) (s : Store) : Store :=
  { s with external := s.external.filter (·.project ≠ project) }

/-- The symbols of the edge with the key of a given one, if there is such an edge. -/
def edgeSymbols? (project : String) (e : DependencyEdge) (s : Store) : Option (List String) :=
  (s.edges.find? (connects project e)).map (·.edge.symbols)

/-- The symbols of an edge together with those that are stored, if there are any. -/
def joinedSymbols (e : DependencyEdge) (stored : Option (List String)) : List String :=
  match stored with
  | some previous => Ordered.union e.symbols previous
  | none => e.symbols

/-- Add an edge, or give its symbols and its confidence to the one with its key. -/
def mergeEdge (project : String) (e : DependencyEdge) (s : Store) : Except Failure Store := do
  demand (e.source ≠ e.target) (.condition "source_component_id <> target_component_id")
  if s.edges.any (connects project e) then
    let merged (row : StoredEdge) : StoredEdge :=
      { row with
        edge := { row.edge with symbols := e.symbols, confidence := e.confidence } }
    .ok { s with edges := updateWhere (connects project e) merged s.edges }
  else s.insertEdge project e

/-- Make the content of a draft that of its file. -/
def promoteFile (p : PromotedFile) (s : Store) : Store :=
  let files := updateWhere (·.id = p.file)
    (fun f => { f with
      storageKey := p.storageKey, hash := some p.hash, size := p.size,
      symbols := p.symbols <|> f.symbols }) s.files
  { s with files }.mend .symbols fun row => p.symbols.isSome && row = p.file

/-- Put a draft out of use. -/
def retireDraft (id : String) (s : Store) : Store :=
  { s with
    drafts := updateWhere (·.id = id) (fun d => { d with active := false }) s.drafts }

/-- Add a snapshot without files. -/
def insertSnapshot (snapshot : Snapshot) (s : Store) : Except Failure Store := do
  demand (!s.snapshots.any (·.id = snapshot.id)) (.duplicateKey "project_snapshots" ["id"])
  demand (s.hasProject snapshot.project && snapshot.change.all s.hasRequest) .foreignKey
  .ok { s with snapshots := s.snapshots ++ [snapshot] }

/-- Add a file to a snapshot. -/
def insertSnapshotFile (row : StoredSnapshotFile) (s : Store) : Except Failure Store := do
  demand (!s.snapshotFiles.any fun r =>
      r.snapshot = row.snapshot && r.file.file = row.file.file)
    (.duplicateKey "snapshot_files" ["snapshot_id", "file_id"])
  demand (s.snapshots.any (·.id = row.snapshot)) .foreignKey
  .ok { s with snapshotFiles := s.snapshotFiles ++ [row] }

/-- Add the files of a project to a snapshot. -/
def copyFiles (snapshot project : String) (s : Store) : Except Failure Store :=
  let rows := (s.files.filter (·.project = project)).map fun f =>
    { snapshot, file := snapshotFile f : StoredSnapshotFile }
  rows.foldlM (fun s row => s.insertSnapshotFile row) s

/-! ## Operations of several statements -/

open Script

/-- Write one row and fail if there is none. -/
def writeOne (f : Store → Nat × Store) (missing : Failure) : Script Store Unit := do
  let written ← change f
  if written = 0 then throw missing else pure ()

/-- Give components a status, one after the other. -/
def writeComponents (ids : List String) (status : ComponentStatus) : Script Store Unit :=
  ids.forM fun id => write fun s => .ok (s.setComponentStatus [id] status)

/-- Add impacts one after the other. -/
def writeImpacts (is : List Impact) : Script Store Unit :=
  is.forM fun i => write (·.insertImpact i)

/-- Replace what the parser found in a project. -/
def writeGraph (project : String) (g : DependencyGraph) : Script Store Unit := do
  write fun s => .ok (s.clearEdges project)
  write fun s => .ok (s.clearExternal project)
  g.edges.forM fun e => write (·.insertEdge project { e with method := .parser })
  g.external.forM fun d => write (·.insertExternal project d)

/-- Add an edge, with the symbols of the one that is there. -/
def writeEdge (project : String) (e : DependencyEdge) : Script Store Unit := do
  if e.source = e.target then
    throw (.index ("self edge on component " ++ e.source))
  else
    transaction do
      let stored ← ask fun s => .ok (s.edgeSymbols? project e)
      write (·.mergeEdge project { e with symbols := joinedSymbols e stored })

/-- Add the impacts that an analysis found and flag components. -/
def writeFindings (is : List Impact) (flagged : List String) : Script Store Unit := do
  writeImpacts is
  writeComponents flagged .flagged

/-- Store the result of an analysis, unless the request is not pending any more. -/
def writeAnalysis (id : String) (is : List Impact) (flagged : List String) (now : Instant) :
    Script Store Bool := do
  start
  let claimed ← change (·.claim id now)
  if claimed = 0 then pure false
  else
    writeFindings is flagged
    commit
    pure true

/-- Make a draft the content of its file. -/
def promoteDraft (p : PromotedFile) : Script Store Unit := do
  write fun s => .ok (s.promoteFile p)
  write fun s => .ok (s.retireDraft p.draft)

/-- Write an approval, with a given identifier for its snapshot. -/
def writeApproval (c : ApprovalCommit) (snapshot : String) : Script Store Unit := do
  c.promoted.forM promoteDraft
  writeComponents c.stabilize .stable
  write fun s => .ok (s.close c.change .approved c.resolvedAt)
  write (·.insertSnapshot
    { id := snapshot, project := c.project, change := some c.change, createdAt := c.resolvedAt })
  write (·.copyFiles snapshot c.project)

/-- Write a rejection. -/
def writeRejection (id : String) (stabilize : List String) (resolvedAt : Instant) :
    Script Store Unit := do
  writeComponents stabilize .stable
  write fun s => .ok (s.close id .rejected resolvedAt)

end Store

/-! ## Commands -/

/-- An operation on the store. -/
inductive Command : Type 1 where
  /-- Anything that only reads. -/
  | read {α : Type} (q : Store → Except Failure α)
  | insertProject (p : Project)
  | insertComponent (c : Component)
  | setComponentStatus (ids : List String) (status : ComponentStatus)
  | addContributor (c : Contributor)
  | upsertFile (f : ProjectFile)
  | setSymbols (id : String) (symbols : Option ParsedFile)
  | insertDraft (d : Draft)
  | replaceGraph (project : String) (g : DependencyGraph)
  | upsertEdge (project : String) (e : DependencyEdge)
  | insertRequest (r : ChangeRequest)
  | setStatus (id : String) (status : ChangeStatus) (now : Instant)
  | insertImpacts (is : List Impact)
  | commitAnalysis (id : String) (is : List Impact) (flagged : List String) (now : Instant)
  | acknowledge (id : String) (time : Instant) (auto : Bool)
  | dismiss (id : String) (time : Instant)
  | annotate (id : String) (comment : Json)
  | commitApproval (c : ApprovalCommit) (snapshot : String)
  | commitRejection (id : String) (stabilize : List String) (resolvedAt : Instant)

namespace Command

open Store Script

/-- What an operation answers. -/
def Answer : Command → Type
  | read (α := α) _ => α
  | upsertFile _ => String
  | commitAnalysis .. => Bool
  | acknowledge .. => Bool
  | dismiss .. => Bool
  | _ => Unit

/-- The statements of an operation. -/
def script : (c : Command) → Script Store c.Answer
  | read q => ask q
  | insertProject p => write (·.insertProject p)
  | insertComponent c => write (·.insertComponent c)
  | setComponentStatus ids status => transaction (writeComponents ids status)
  | addContributor c => write (·.addContributor c)
  | upsertFile f => statement (·.upsertFile f)
  | setSymbols id symbols =>
    writeOne (·.writeSymbols id symbols) (.notFound ("project file " ++ id))
  | insertDraft d => write (·.insertDraft d)
  | replaceGraph project g => transaction (writeGraph project g)
  | upsertEdge project e => writeEdge project e
  | insertRequest r => write (·.insertRequest r)
  | setStatus id status now =>
    writeOne (·.writeStatus id status now) (.notFound ("change request " ++ id))
  | insertImpacts is => transaction (writeImpacts is)
  | commitAnalysis id is flagged now => writeAnalysis id is flagged now
  | acknowledge id time auto => change (·.acknowledge id time auto)
  | dismiss id time => change (·.dismiss id time)
  | annotate id comment => write fun s => .ok (s.annotate id comment)
  | commitApproval c snapshot => transaction (writeApproval c snapshot)
  | commitRejection id stabilize resolvedAt =>
    transaction (writeRejection id stabilize resolvedAt)

end Command

/-! ## Files -/

/-- A database with the copies that were made of it. -/
structure Database where
  /-- The tables. -/
  tables : Store := {}
  /-- The copies by name, the latest first. -/
  copies : List (String × Store) := []

/-- What a database can be told to do. -/
inductive Order : Type 1 where
  /-- Carry out an operation on the store. -/
  | command (c : Command)
  /-- Create the tables that are missing and migrate to the current version. -/
  | initialise
  /-- Copy the tables. -/
  | backup (name : String)
  /-- Bring back the tables that were copied last under a name. -/
  | restore (name : String)

namespace Order

/-- What a database answers. -/
def Answer : Order → Type
  | command c => c.Answer
  | _ => Unit

/-- What an order makes of a database. -/
def perform : (o : Order) → Database → Except Failure o.Answer × Database
  | command c, db =>
    let (answer, tables) := c.script.run db.tables
    (answer, { db with tables })
  | initialise, db =>
    let (answer, schema) := Catalog.migration.run db.tables.schema.createTables
    (answer, { db with tables := { db.tables with schema } })
  | backup name, db => (.ok (), { db with copies := (name, db.tables) :: db.copies })
  | restore name, db =>
    match db.copies.find? (·.1 = name) with
    | some (_, tables) => (.ok (), { db with tables })
    | none => (.error (.notFound ("backup file " ++ name)), db)

end Order

namespace Database

/-- The database after some orders, whether they fail or not. -/
def after (db : Database) (orders : List Order) : Database :=
  orders.foldl (fun db o => (o.perform db).2) db

end Database

end ChangeImpact
