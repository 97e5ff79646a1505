/-!
# Edit scripts

An edit script turns one list of lines into another: it keeps, deletes and
inserts runs of lines. Each operation carries the places it is at in both lists;
for a deletion the place in the new list, and for an insertion the place in the
old one, only says where it stands.
-/

namespace ChangeImpact.Diff

/-- What an operation does. -/
inductive Action where
  /-- Keeps a run of both lists. -/
  | keep
  /-- Drops a run of the old list. -/
  | delete
  /-- Adds a run of the new list. -/
  | insert
deriving DecidableEq, Repr, Inhabited

/-- An operation on one run of lines. -/
structure Edit where
  /-- What it does. -/
  action : Action
  /-- Its place in the old list. -/
  old : Nat
  /-- Its place in the new list. -/
  new : Nat
  /-- The number of lines. -/
  length : Nat
deriving DecidableEq, Repr, Inhabited

namespace Edit

/-- The end of the range in the old list. -/
def oldEnd (e : Edit) : Nat :=
  if e.action = .insert then e.old else e.old + e.length

/-- The end of the range in the new list. -/
def newEnd (e : Edit) : Nat :=
  if e.action = .delete then e.new else e.new + e.length

end Edit

/-- The lines that two lists have in common from two places on, up to two ends. -/
def commonPrefix (a b : Array String) (i iEnd j jEnd : Nat) : Nat :=
  if i < iEnd ∧ j < jEnd ∧ a[i]? = b[j]? then 1 + commonPrefix a b (i + 1) iEnd (j + 1) jEnd
  else 0
termination_by iEnd - i

/-- The lines that two lists have in common before two ends, down to two places. -/
def commonSuffix (a b : Array String) (i j : Nat) : Nat → Nat → Nat
  | iEnd + 1, jEnd + 1 =>
    if i ≤ iEnd ∧ j ≤ jEnd ∧ a[iEnd]? = b[jEnd]? then 1 + commonSuffix a b i j iEnd jEnd else 0
  | _, _ => 0

end ChangeImpact.Diff
