import ChangeImpact.Store.Projects

/-!
# Stored files and drafts

A project has at most one file at a path; storing another one there replaces
everything but its identifier. Drafts are listed in the order in which they were
written.
-/

namespace ChangeImpact.Store

/-- Whether there is a file of that identifier. -/
def hasFile (s : Store) (id : String) : Bool := s.files.any (·.id = id)

/-- Whether two rows stand for the same path of the same project. -/
def samePlace (f g : ProjectFile) : Bool := f.project = g.project ∧ f.path = g.path

/-- Whether a file's component, if it has one, is there. -/
def ownerExists (s : Store) (f : ProjectFile) : Bool :=
  match f.component with
  | some c => s.hasComponent c
  | none => true

/-- Store a file, in place of the one at its path if there is one. Answers with the
identifier under which the file is stored. -/
def upsertFile (f : ProjectFile) (s : Store) : Except Failure (String × Store) :=
  match s.files.find? (samePlace f) with
  | some old => do
    demand (s.ownerExists f) .foreignKey
    let files := updateWhere (samePlace f) (fun g => { f with id := g.id }) s.files
    .ok (old.id, { s with files }.mend .symbols (· = old.id))
  | none => do
    demand (!s.hasFile f.id) (.duplicateKey "project_files" ["id"])
    demand (s.hasProject f.project && s.ownerExists f) .foreignKey
    .ok (f.id, { s with files := s.files ++ [f] })

/-- The file of an identifier. -/
def file? (s : Store) (id : String) : Except Failure (Option ProjectFile) :=
  s.readFirst [.symbols] (·.id) (s.files.find? (·.id = id))

/-- The file at a path of a project. -/
def fileAt? (s : Store) (project path : String) : Except Failure (Option ProjectFile) :=
  s.readFirst [.symbols] (·.id) (s.files.find? fun f => f.project = project ∧ f.path = path)

/-- Files in the order of their paths. -/
def byPath (files : List ProjectFile) : List ProjectFile :=
  Ordered.sortBy (fun a b => decide (a.path ≤ b.path)) files

/-- The files of a project by path. -/
def filesOf (s : Store) (project : String) : Except Failure (List ProjectFile) :=
  s.readRows [.symbols] (·.id) (byPath (s.files.filter (·.project = project)))

/-- The files of a component by path. -/
def filesIn (s : Store) (component : String) : Except Failure (List ProjectFile) :=
  s.readRows [.symbols] (·.id) (byPath (s.files.filter (·.component = some component)))

/-- Replace the symbols of a file. -/
def setSymbols (id : String) (symbols : Option ParsedFile) (s : Store) :
    Except Failure Store := do
  demand (s.hasFile id) (.notFound ("project file " ++ id))
  let files := updateWhere (·.id = id) (fun f => { f with symbols }) s.files
  .ok ({ s with files }.mend .symbols (· = id))

/-- Add a draft. -/
def insertDraft (d : Draft) (s : Store) : Except Failure Store := do
  demand (!s.drafts.any (·.id = d.id)) (.duplicateKey "file_drafts" ["id"])
  demand (s.hasFile d.file) .foreignKey
  .ok { s with drafts := s.drafts ++ [d] }

/-- The active drafts of a user on the files of a component, the oldest first. -/
def activeDrafts (s : Store) (author component : String) : List Draft :=
  Ordered.sortBy
    (fun a b => decide (a.createdAt < b.createdAt) ||
      (a.createdAt = b.createdAt && decide (a.id ≤ b.id)))
    (s.drafts.filter fun d => d.author = author && d.active &&
      s.files.any fun f => f.id = d.file && f.component = some component)

end ChangeImpact.Store
