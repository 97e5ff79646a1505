import ChangeImpact.Graph.Build
import ChangeImpact.Objects.Key
import ChangeImpact.Scan.Walk
import ChangeImpact.Text.Digest
import ChangeImpact.Workflow.Requests

/-!
# Indexing a project

Taking over files from a directory, parsing the stored content of all files, and
building the dependency graph from the stored symbols.
-/

namespace ChangeImpact

open Operation

/-- The indexed form of a file that has symbols. They go by the path of the file. -/
def indexed? (f : ProjectFile) : Option IndexedFile :=
  f.symbols.map fun symbols =>
    { component := f.component, parsed := { symbols with path := f.path } }

/-- Build the graph of a project from the stored symbols and store it. -/
def rebuildGraph (project : String) : Operation DependencyGraph := do
  let files ← read (·.filesOf project)
  let graph := DependencyGraph.build (files.filterMap indexed?)
  write (·.replaceGraph project graph)
  pure graph

/-- A file that could not be parsed. -/
structure FileFailure where
  /-- Its path. -/
  path : String
  /-- Why not. -/
  reason : Failure
deriving DecidableEq, Repr

/-- What parsing a project did. -/
structure IndexReport where
  /-- The number of files that were parsed. -/
  parsed : Nat
  /-- The number of files without a language. -/
  skipped : Nat
  /-- The files without content. -/
  failed : List FileFailure
  /-- The number of edges. -/
  edges : Nat
  /-- The number of imports that lead out. -/
  external : Nat
deriving DecidableEq, Repr

/-- The sources whose content is stored, and the files without content. -/
def fetchAll (o : Objects) (files : List ProjectFile) : List SourceFile × List FileFailure :=
  (files.filterMap fun f =>
      (o.get f.storageKey).toOption.map fun content => { path := f.path, content },
    files.filterMap fun f =>
      match o.get f.storageKey with
      | .ok _ => none
      | .error reason => some { path := f.path, reason })

/-- The file at a path among those of a project. -/
def listedAt? (files : List ProjectFile) (path : String) : Option ProjectFile :=
  files.find? (·.path = path)

/-- Parse the content of every file of a project, store the symbols, build the graph and
tell the owner. A file without content loses its symbols; one without a language keeps
them. What was parsed, and what failed, goes to the file at its path. -/
def indexProject (setup : Setup) (project : String) : Operation IndexReport := do
  let p ← getProject project
  let files ← read (·.filesOf project)
  let (sources, failed) := fetchAll (← get).objects files
  let batch := parseSources setup.grammar sources
  let parsed := batch.parsed.filterMap fun e =>
    (listedAt? files e.parsed.path).map fun f => (f, e.parsed)
  parsed.forM fun (f, symbols) => write (·.setSymbols f.id (some symbols))
  (failed.filterMap (listedAt? files ·.path)).forM fun f => write (·.setSymbols f.id none)
  let graph ← rebuildGraph project
  publish p.owner .filesReady project
  pure
    { parsed := parsed.length
      skipped := batch.skipped.length
      failed
      edges := graph.edges.length
      external := graph.external.length }

/-- Take over one file that a scan found. -/
def loadFile (project : String) (owner : Option String) (f : ScannedFile) : Operation Unit := do
  let storageKey := fileKey project f.path
  store (·.put storageKey f.content)
  let id ← freshId
  let _ ← writeWith (·.upsertFile
    { id, project, component := owner, path := f.path, language := some f.language.name
      size := f.content.length, storageKey, hash := some (Digest.sha256 f.content) })

/-- Take over the source files of a directory. `owner` says which component owns a path.
Answers with their number. -/
def loadDirectory (setup : Setup) (project : String) (tree : FileTree)
    (owner : String → Option String) : Operation Nat := do
  let files := Scan.run tree "" setup.settings.excludeSensitive
  files.forM fun f => loadFile project (owner f.path) f
  pure files.length

end ChangeImpact
