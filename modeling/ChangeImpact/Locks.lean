import ChangeImpact.Ordered

/-!
# Project locks

Work on one project is done by one worker at a time; different projects do not
wait for each other. A project's lock comes into being when it is first asked for.
-/

namespace ChangeImpact

/-- The locks that have been asked for and those that are held. -/
structure ProjectLocks where
  /-- The projects whose lock exists. -/
  known : List String := []
  /-- The projects whose lock is held. -/
  held : List String := []
deriving DecidableEq, Repr

namespace ProjectLocks

/-- Ask for the lock of a project. -/
def get (l : ProjectLocks) (project : String) : ProjectLocks :=
  { l with known := Ordered.insertOnce project l.known }

/-- Whether the lock of a project could be taken. -/
def isFree (l : ProjectLocks) (project : String) : Bool := !l.held.contains project

/-- Take the lock of a project. -/
def take (l : ProjectLocks) (project : String) : ProjectLocks :=
  { l.get project with held := Ordered.insertOnce project l.held }

/-- Give the lock of a project back. -/
def release (l : ProjectLocks) (project : String) : ProjectLocks :=
  { l with held := l.held.filter (· ≠ project) }

/-- The number of locks. -/
def size (l : ProjectLocks) : Nat := l.known.length

end ProjectLocks

end ChangeImpact
