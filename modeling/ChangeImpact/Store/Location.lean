import ChangeImpact.Text.Pieces

/-!
# Where a database lies

A database is named by a path. A leading `~` means the home directory, and a
relative path starts in the working directory. Paths are joined, not normalised.
-/

namespace ChangeImpact

/-- A path and the directory that it starts in. -/
inductive Location where
  /-- The home directory itself. -/
  | home
  /-- A path below the home directory. -/
  | inHome (path : String)
  /-- A path below the working directory; it may be empty. -/
  | inWorkingDirectory (path : String)
  /-- A path from the root. -/
  | absolute (path : String)
deriving DecidableEq, Repr

namespace Location

/-- Where a path leads. What follows `~/` replaces the home directory when it is a path
from the root itself. -/
def ofText (path : String) : Location :=
  match path.toList with
  | ['~'] => .home
  | ['~', '/'] => .home
  | '~' :: '/' :: '/' :: rest => .absolute (String.ofList ('/' :: rest))
  | '~' :: '/' :: rest => .inHome (String.ofList rest)
  | '/' :: rest => .absolute (String.ofList ('/' :: rest))
  | cs => .inWorkingDirectory (String.ofList cs)

/-- The path from the root, for a given home and working directory. -/
def path (home workingDirectory : String) : Location → String
  | .home => home
  | .inHome rest => home ++ "/" ++ rest
  | .inWorkingDirectory rest => workingDirectory ++ "/" ++ rest
  | .absolute path => path

end Location

end ChangeImpact
