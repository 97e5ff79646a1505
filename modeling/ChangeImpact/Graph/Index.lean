import ChangeImpact.Path

/-!
# Index of exports

The snapshots of a project's files by path, and for each exported name the files
that export it. Every file is in the index before any import is resolved.
-/

namespace ChangeImpact

/-- A file's symbols and the component that owns it. -/
structure IndexedFile where
  /-- The owning component, if there is one. -/
  component : Option String
  /-- The symbols of the file. -/
  parsed : ParsedFile
deriving DecidableEq, Repr

/-- The path of an indexed file. -/
def IndexedFile.path (f : IndexedFile) : String := f.parsed.path

/-- Files by path and exporters by name, both ascending. -/
structure ExportIndex where
  /-- The files by path. -/
  files : List (String × IndexedFile) := []
  /-- For each exported name the paths of its exporters, ascending. -/
  exporters : List (String × List String) := []
deriving DecidableEq, Repr

namespace ExportIndex

/-- Note that `path` exports a name. -/
def addExporter (path : String) (exporters : List (String × List String)) (e : Export) :
    List (String × List String) :=
  Ordered.alter e.name (fun paths => Ordered.insert path (paths.getD [])) exporters

/-- The index with one more file; a later file of a path replaces the earlier one. -/
def add (index : ExportIndex) (f : IndexedFile) : ExportIndex where
  files := Ordered.upsert f.path f index.files
  exporters := f.parsed.exports.foldl (addExporter f.path) index.exporters

/-- The index of a list of files. -/
def build (files : List IndexedFile) : ExportIndex :=
  files.foldl add {}

/-- The number of files. -/
def size (index : ExportIndex) : Nat := index.files.length

/-- The files in path order. -/
def toList (index : ExportIndex) : List IndexedFile := index.files.map (·.2)

/-- The paths, ascending. -/
def paths (index : ExportIndex) : List String := index.files.map (·.1)

/-- The file at a path. -/
def get? (index : ExportIndex) (path : String) : Option IndexedFile :=
  Ordered.find? path index.files

/-- The component that owns the file at a path. -/
def componentOf (index : ExportIndex) (path : String) : Option String :=
  (index.get? path).bind (·.component)

/-- The paths of the files that export a name, ascending. -/
def exportersOf (index : ExportIndex) (name : String) : List String :=
  (Ordered.find? name index.exporters).getD []

/-- The indexed path that an import means. -/
def resolve (index : ExportIndex) (importer source : String) : Option String :=
  Path.resolve importer source index.paths

/-- The indexed file that an import means. -/
def target? (index : ExportIndex) (importer : String) (i : Import) : Option IndexedFile :=
  (index.resolve importer i.source).bind index.get?

end ExportIndex

end ChangeImpact
