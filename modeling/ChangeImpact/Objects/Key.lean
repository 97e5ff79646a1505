/-!
# Storage keys

The keys under which the content of project files is stored. Content that an
approval promotes gets a key of its own, so earlier snapshots keep pointing at
their octets.
-/

namespace ChangeImpact

/-- The key of the content that was loaded for a file. -/
def fileKey (project path : String) : String :=
  "projects/" ++ project ++ "/files/" ++ path

/-- The key of a promoted revision of a file. -/
def revisionKey (project revision path : String) : String :=
  "projects/" ++ project ++ "/revisions/" ++ revision ++ "/" ++ path

end ChangeImpact
