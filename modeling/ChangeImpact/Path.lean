import ChangeImpact.Text.Pieces
import ChangeImpact.Symbols.Basic

/-!
# Project paths

Paths of project files use slashes. `Path.normalize` drops empty and `.` segments
and lets `..` take back the segment in front of it. A relative import is joined
onto the importing file's directory and matched against the known paths: as it
is, with each source extension, and as a directory with an index file.
-/

namespace ChangeImpact.Path

/-- The texts between the slashes of a path. -/
def segments (path : String) : List String :=
  Text.pieces '/' path

/-- One more segment on a stack of segments, the last one on top. -/
def push (stack : List String) (segment : String) : List String :=
  if segment = "" ∨ segment = "." then stack
  else if segment = ".." then stack.tail
  else segment :: stack

/-- The segments that remain of a path, in order. A `..` at the root is dropped. -/
def resolved (path : String) : List String :=
  ((segments path).foldl push []).reverse

/-- Segments as a path. -/
def join (parts : List String) : String :=
  "/".intercalate parts

/-- The normal form of a path. -/
def normalize (path : String) : String :=
  join (resolved path)

/-- The path in front of the last slash; empty for a top-level file. -/
def parent (path : String) : String :=
  ((Text.splitLast? "/" path).map (·.1)).getD ""

/-- The extensions that an import may leave out, in the order in which they are tried. -/
def extensions : List String :=
  [".ts", ".tsx", ".js", ".jsx", ".py", ".go", ".rs", ".java", ".rb", ".cs", ".php"]

/-- The paths that an import may mean, in the order in which they are tried. -/
def candidates (importer source : String) : List String :=
  let base := normalize (parent importer ++ "/" ++ source)
  base :: (extensions.map (base ++ ·) ++
    extensions.map fun ext => normalize (base ++ "/index" ++ ext))

/-- The known path that a relative import means: the first candidate that is known. -/
def resolve (importer source : String) (known : List String) : Option String :=
  if Import.isRelativePath source then
    (candidates importer source).find? fun c => known.contains c
  else none

end ChangeImpact.Path
