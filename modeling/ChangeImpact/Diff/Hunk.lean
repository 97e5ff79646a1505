import ChangeImpact.Diff.Group
import ChangeImpact.Ordered
import ChangeImpact.Text.Pieces

/-!
# Line diffs

The difference of two texts as hunks of prefixed lines. Line numbers are those
of the new text; a removed line counts where it was removed from.
-/

namespace ChangeImpact.Diff

/-- The lines of a text with their ends: a line feed, a carriage return or both. -/
def splitLines : List Char → List (List Char)
  | [] => []
  | '\r' :: '\n' :: cs => ['\r', '\n'] :: splitLines cs
  | c :: cs =>
    if c = '\n' ∨ c = '\r' then [c] :: splitLines cs
    else match splitLines cs with
      | [] => [[c]]
      | line :: lines => (c :: line) :: lines

/-- The lines of a text with their ends. -/
def lines (text : String) : Array String :=
  ((splitLines text.toList).map String.ofList).toArray

/-- The kind of the last line of a hunk. -/
inductive HunkKind where
  | context
  | add
  | remove
deriving DecidableEq, Repr, Inhabited

/-- A run of changed lines and the lines around them. -/
structure Hunk where
  /-- The first line, in the new text. -/
  startLine : Nat
  /-- The line after the last one, in the new text. -/
  endLine : Nat
  /-- The kind of the last line. -/
  kind : HunkKind
  /-- The lines, each after a blank, a plus or a minus. -/
  content : String
deriving DecidableEq, Repr

/-- The difference of two texts. -/
structure DiffResult where
  /-- The hunks in order. -/
  hunks : List Hunk
  /-- The new line numbers that are touched, ascending. -/
  changedLines : List Nat
  /-- The number of added lines. -/
  additions : Nat
  /-- The number of removed lines. -/
  deletions : Nat
deriving DecidableEq, Repr

namespace DiffResult

/-- Whether the texts are equal. -/
def isEmpty (d : DiffResult) : Bool := d.hunks.isEmpty

/-- The hunks under a header that names the file. -/
def unified (d : DiffResult) (path : String) : String :=
  let body := d.hunks.map fun h =>
    if Text.endsWith h.content "\n" then h.content else h.content ++ "\n"
  "--- " ++ path ++ "\n+++ " ++ path ++ "\n" ++ String.join body

end DiffResult

/-- A line of a hunk. -/
structure HunkLine where
  /-- Whether it is kept, added or removed. -/
  kind : HunkKind
  /-- The line. -/
  text : String
deriving DecidableEq, Repr

/-- The lines of a range. -/
def range (xs : Array String) (start length : Nat) : List String :=
  (xs.extract start (start + length)).toList

/-- The lines of a change: kept ones, or the removed before the added. -/
def Change.lines (a b : Array String) : Change → List HunkLine
  | .keep old _ length => (range a old length).map (⟨.context, ·⟩)
  | .replace old oldLength new newLength =>
    (range a old oldLength).map (⟨.remove, ·⟩) ++ (range b new newLength).map (⟨.add, ·⟩)

/-- The mark in front of a line. -/
def HunkKind.mark : HunkKind → String
  | context => " "
  | add => "+"
  | remove => "-"

/-- Whether a line has no end. -/
def isUnterminated (line : String) : Bool :=
  !(Text.endsWith line "\n" || Text.endsWith line "\r")

/-- A line as it is written in a hunk; a missing line end is noted below it. -/
def HunkLine.render (l : HunkLine) : String :=
  l.kind.mark ++ l.text ++
    (if isUnterminated l.text then "\n\\ No newline at end of file\n" else "")

/-- A group as it is being numbered. -/
structure Numbering where
  /-- The number of the next new line. -/
  next : Nat
  /-- The end of the hunk so far. -/
  stop : Nat
  /-- The kind of the last changed line. -/
  kind : HunkKind
  /-- The touched line numbers, the latest first. -/
  touched : List Nat

/-- Number one more line. A removed line counts as the line it was removed before. -/
def Numbering.add (n : Numbering) (l : HunkLine) : Numbering :=
  match l.kind with
  | .context => { n with next := n.next + 1, stop := n.next + 1 }
  | .add =>
    { next := n.next + 1, stop := n.next + 1, kind := .add, touched := n.next :: n.touched }
  | .remove =>
    { n with stop := max n.stop n.next, kind := .remove, touched := n.next :: n.touched }

/-- The first line number of a group: an empty range is numbered from the line before it. -/
def groupStart (group : List Change) : Nat :=
  match group.head?, group.getLast? with
  | some first, some last =>
    if last.newEnd = first.newStart then first.newStart else first.newStart + 1
  | _, _ => 0

/-- The lines of a group. -/
def groupLines (a b : Array String) (group : List Change) : List HunkLine :=
  group.flatMap (·.lines a b)

/-- The numbering of a group. -/
def numberGroup (a b : Array String) (group : List Change) : Numbering :=
  let start := groupStart group
  (groupLines a b group).foldl Numbering.add ⟨start, start, .context, []⟩

/-- The hunk of a group. -/
def hunkOf (a b : Array String) (group : List Change) : Hunk :=
  let n := numberGroup a b group
  { startLine := groupStart group
    endLine := n.stop
    kind := n.kind
    content := String.join ((groupLines a b group).map (·.render)) }

/-- The difference that groups of changes make. -/
def ofGroups (a b : Array String) (gs : List (List Change)) : DiffResult where
  hunks := gs.map (hunkOf a b)
  changedLines := Ordered.ofList (gs.flatMap fun g => (numberGroup a b g).touched)
  additions := (gs.flatMap (groupLines a b)).countP (·.kind = .add)
  deletions := (gs.flatMap (groupLines a b)).countP (·.kind = .remove)

/-- The difference of a committed text and a draft of it. -/
def compare (committed draft : String) : DiffResult :=
  let a := lines committed
  let b := lines draft
  ofGroups a b (groups context (changes (settle a b (script a b))))

end ChangeImpact.Diff
