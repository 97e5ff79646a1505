import ChangeImpact.Store.Files
import ChangeImpact.Store.Requests

/-!
# Stored decisions

Approval promotes drafts, releases the affected components, closes the request
and takes a snapshot of the project's files, all at once. Rejection only
releases the components and closes the request.
-/

namespace ChangeImpact

/-- A draft that becomes the content of its file. -/
structure PromotedFile where
  /-- The file. -/
  file : String
  /-- The draft. -/
  draft : String
  /-- The key under which the content was stored. -/
  storageKey : String
  /-- The digest of the content. -/
  hash : String
  /-- The length of the content. -/
  size : Int
  /-- The symbols of the content; without them the file keeps those it had. -/
  symbols : Option ParsedFile
deriving DecidableEq, Repr

/-- What an approval writes. -/
structure ApprovalCommit where
  /-- The project. -/
  project : String
  /-- The request. -/
  change : String
  /-- The drafts to promote. -/
  promoted : List PromotedFile
  /-- The components to release. -/
  stabilize : List String
  /-- The time of the approval. -/
  resolvedAt : Instant
deriving DecidableEq, Repr

namespace Store

/-- Make a draft the content of its file. -/
def promote (p : PromotedFile) (s : Store) : Store :=
  let files := updateWhere (·.id = p.file)
    (fun f => { f with
      storageKey := p.storageKey, hash := some p.hash, size := p.size,
      symbols := p.symbols <|> f.symbols }) s.files
  let drafts := updateWhere (·.id = p.draft) (fun d => { d with active := false }) s.drafts
  { s with files, drafts }.mend .symbols fun row => p.symbols.isSome && row = p.file

/-- Close a request. -/
def close (id : String) (status : ChangeStatus) (now : Instant) (s : Store) : Store :=
  s.updateRequest id fun r => { r with status, updatedAt := now, resolvedAt := some now }

/-- A file as a snapshot holds it. -/
def snapshotFile (f : ProjectFile) : SnapshotFile where
  file := f.id
  path := f.path
  storageKey := f.storageKey
  hash := f.hash

/-- Take a snapshot of a project's files. -/
def takeSnapshot (snapshot : Snapshot) (s : Store) : Except Failure Store := do
  demand (!s.snapshots.any (·.id = snapshot.id)) (.duplicateKey "project_snapshots" ["id"])
  demand (s.hasProject snapshot.project && snapshot.change.all s.hasRequest) .foreignKey
  let rows := (s.files.filter (·.project = snapshot.project)).map fun f =>
    { snapshot := snapshot.id, file := snapshotFile f : StoredSnapshotFile }
  .ok { s with
    snapshots := s.snapshots ++ [snapshot]
    snapshotFiles := s.snapshotFiles ++ rows }

/-- Write an approval, with a given identifier for its snapshot. -/
def commitApproval (c : ApprovalCommit) (snapshot : String) (s : Store) :
    Except Failure Store :=
  let s := c.promoted.foldl (fun s p => s.promote p) s
  let s := s.setComponentStatus c.stabilize .stable
  (s.close c.change .approved c.resolvedAt).takeSnapshot
    { id := snapshot, project := c.project, change := some c.change, createdAt := c.resolvedAt }

/-- Write a rejection. -/
def commitRejection (change : String) (stabilize : List String) (resolvedAt : Instant)
    (s : Store) : Store :=
  (s.setComponentStatus stabilize .stable).close change .rejected resolvedAt

/-- The snapshots of a project, the earliest first. -/
def snapshotsOf (s : Store) (project : String) : List Snapshot :=
  Ordered.sortBy
    (fun a b => decide (a.createdAt < b.createdAt) ||
      (a.createdAt = b.createdAt && decide (a.id ≤ b.id)))
    (s.snapshots.filter (·.project = project))

/-- The files of a snapshot by path. -/
def filesOfSnapshot (s : Store) (snapshot : String) : List SnapshotFile :=
  Ordered.sortBy (fun a b => decide (a.path ≤ b.path))
    ((s.snapshotFiles.filter (·.snapshot = snapshot)).map (·.file))

end Store

end ChangeImpact
