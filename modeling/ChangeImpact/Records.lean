import ChangeImpact.Instant
import ChangeImpact.Json.Basic
import ChangeImpact.Words

/-!
# Records of a project under review

The things that are stored: projects and their components, files and drafts,
change requests and their impacts, and snapshots of what was committed.
-/

namespace ChangeImpact

/-- A project. -/
structure Project where
  /-- Its identifier. -/
  id : String
  /-- Its name. -/
  name : String
  /-- The user who decides on its change requests. -/
  owner : String
  /-- What it demands before approval. -/
  strictness : Strictness
deriving DecidableEq, Repr

/-- A part of a project with contributors of its own. -/
structure Component where
  /-- Its identifier. -/
  id : String
  /-- The project it belongs to. -/
  project : String
  /-- Its name, unique in the project. -/
  name : String
  /-- Its state. -/
  status : ComponentStatus := .stable
deriving DecidableEq, Repr

/-- A user's part in a component. -/
structure Contributor where
  /-- The component. -/
  component : String
  /-- The user. -/
  user : String
  /-- What the user may do. -/
  role : ContributorRole := .contributor
deriving DecidableEq, Repr

/-- A committed file of a project. -/
structure ProjectFile where
  /-- Its identifier. -/
  id : String
  /-- The project it belongs to. -/
  project : String
  /-- The component that owns it. -/
  component : Option String
  /-- Its path, unique in the project. -/
  path : String
  /-- The name of its language. -/
  language : Option String := none
  /-- The length of its content. -/
  size : Int := 0
  /-- The key of the object that holds its content. -/
  storageKey : String
  /-- The digest of its content. -/
  hash : Option String := none
  /-- Its symbols, if it was parsed. -/
  symbols : Option ParsedFile := none
deriving DecidableEq, Repr

/-- A user's proposed content of a file. -/
structure Draft where
  /-- Its identifier. -/
  id : String
  /-- The file it is for. -/
  file : String
  /-- The user who wrote it. -/
  author : String
  /-- The proposed content. -/
  content : String
  /-- Whether it still stands to be promoted. -/
  active : Bool := true
  /-- When it was written. -/
  createdAt : Instant
deriving DecidableEq, Repr

/-- A request to commit a user's drafts on a component. -/
structure ChangeRequest where
  /-- Its identifier. -/
  id : String
  /-- The project it belongs to. -/
  project : String
  /-- The component it changes. -/
  component : String
  /-- The user whose drafts it is about. -/
  author : String
  /-- Its title. -/
  title : String
  /-- Its description. -/
  description : String := ""
  /-- Where it stands. -/
  status : ChangeStatus := .pendingAnalysis
  /-- When it was made. -/
  createdAt : Instant
  /-- When its status last changed. -/
  updatedAt : Instant
  /-- When it was approved or rejected. -/
  resolvedAt : Option Instant := none
deriving DecidableEq, Repr

/-- Affected lines by file, ascending in the path. -/
abbrev AffectedLines := List (String × List Nat)

/-- What a change request does to one contributor of a component. -/
structure Impact where
  /-- Its identifier. -/
  id : String
  /-- The change request. -/
  change : String
  /-- The affected component. -/
  component : String
  /-- The contributor who has to take note. -/
  contributor : String
  /-- Where it was found. -/
  method : DetectionMethod := .parser
  /-- How certain it is. -/
  confidence : Float := 1.0
  /-- The lines that refer to what changes. -/
  affectedLines : AffectedLines := []
  /-- Whether the contributor took note. -/
  acknowledged : Bool := false
  /-- Whether the contributor turned it down. -/
  dismissed : Bool := false
  /-- Whether it was acknowledged for its age. -/
  autoConfirmed : Bool := false
  /-- When it was acknowledged or dismissed. -/
  acknowledgedAt : Option Instant := none
  /-- What a language model said about it. -/
  comment : Option Json := none
  /-- When it was found. -/
  createdAt : Instant

/-- Whether nobody has to look at the impact any more. -/
def Impact.isResolved (i : Impact) : Bool := i.acknowledged || i.dismissed

/-- A record of a project's committed files at one time. -/
structure Snapshot where
  /-- Its identifier. -/
  id : String
  /-- The project. -/
  project : String
  /-- The request whose approval made it. -/
  change : Option String
  /-- When it was made. -/
  createdAt : Instant
deriving DecidableEq, Repr

/-- One file of a snapshot. -/
structure SnapshotFile where
  /-- The file. -/
  file : String
  /-- Its path. -/
  path : String
  /-- The key of the object that held its content. -/
  storageKey : String
  /-- The digest of its content. -/
  hash : Option String
deriving DecidableEq, Repr

end ChangeImpact
