import ChangeImpact.Path
import ChangeImpact.Records

/-!
# Ownership by directory

A file that is taken over from a directory belongs to the component that is
named like its top-level directory.
-/

namespace ChangeImpact

/-- The part of a path in front of its first slash. -/
def topLevel (path : String) : String :=
  (Path.segments path).headD ""

/-- The first of some components that is named like the top level of a path. -/
def ownerOf (components : List Component) (path : String) : Option String :=
  (components.find? fun c => c.name = topLevel path).map (·.id)

end ChangeImpact
