import ChangeImpact.Diff.Settle
import ChangeImpact.Diff.Snake

/-!
# Changes in context

Neighbouring edits of a settled script join into changes: a kept run, or old
lines replaced by new ones. Changes that are near each other form a group with
up to three kept lines around and between them.
-/

namespace ChangeImpact.Diff

/-- A kept run, or old lines that new lines take the place of. -/
inductive Change where
  /-- A run of `length` lines at these places of both lists. -/
  | keep (old new length : Nat)
  /-- `oldLength` old lines dropped and `newLength` new lines added. -/
  | replace (old oldLength new newLength : Nat)
deriving DecidableEq, Repr

namespace Change

/-- The start of the range in the new list. -/
def newStart : Change → Nat
  | keep _ new _ => new
  | replace _ _ new _ => new

/-- The end of the range in the new list. -/
def newEnd : Change → Nat
  | keep _ new length => new + length
  | replace _ _ new newLength => new + newLength

/-- Whether the change is a kept run. -/
def isKeep : Change → Bool
  | keep .. => true
  | replace .. => false

end Change

/-- Deletions and insertions that are waiting to be joined. -/
structure Pending where
  /-- The first deletion, with the lengths of all. -/
  delete : Option Edit := none
  /-- The first insertion, with the lengths of all. -/
  insert : Option Edit := none

namespace Pending

/-- The change that they make together. -/
def toList (p : Pending) : List Change :=
  match p.delete, p.insert with
  | none, none => []
  | some d, none => [.replace d.old d.length d.new 0]
  | none, some i => [.replace i.old 0 i.new i.length]
  | some d, some i => [.replace d.old d.length i.new i.length]

/-- Lengthen the first edit of a kind, or take this one as the first. -/
def join (first : Option Edit) (e : Edit) : Option Edit :=
  match first with
  | none => some e
  | some f => some (f.grow e.length)

/-- One more deletion or insertion. -/
def add (p : Pending) (e : Edit) : Pending :=
  if e.action = .delete then { p with delete := join p.delete e }
  else { p with insert := join p.insert e }

end Pending

/-- The changes of a script: kept runs join each other, and the deletions and insertions
between two kept runs join into one change. -/
def changesFrom (kept : Option Edit) (pending : Pending) : List Edit → List Change
  | [] => (kept.map fun k => Change.keep k.old k.new k.length).toList ++ pending.toList
  | e :: rest =>
    if e.action = .keep then
      match kept with
      | some k => changesFrom (some (k.grow e.length)) {} rest
      | none => pending.toList ++ changesFrom (some e) {} rest
    else
      match kept with
      | some k => .keep k.old k.new k.length :: changesFrom none (Pending.add {} e) rest
      | none => changesFrom none (pending.add e) rest

/-- The changes of a script. -/
def changes (edits : List Edit) : List Change :=
  changesFrom none {} edits

/-- The kept lines around a change. -/
def context : Nat := 3

/-- The last lines of a kept run. -/
def keepLast (n : Nat) : Change → Change
  | .keep old new length => .keep (old + (length - n)) (new + (length - n)) (min length n)
  | c => c

/-- The first lines of a kept run. -/
def keepFirst (n : Nat) : Change → Change
  | .keep old new length => .keep old new (min length n)
  | c => c

/-- A kept run at the start keeps its last lines. -/
def trimStart (n : Nat) : List Change → List Change
  | c :: rest => keepLast n c :: rest
  | [] => []

/-- A kept run at the end keeps its first lines. -/
def trimEnd (n : Nat) : List Change → List Change
  | [] => []
  | [c] => [keepFirst n c]
  | c :: rest => c :: trimEnd n rest

/-- A group is worth showing when it holds more than one kept run. -/
def isShown : List Change → Bool
  | [] => false
  | [c] => !c.isKeep
  | _ => true

/-- Cut the changes at kept runs longer than `2 * n`. `group` is the open group, the last
change first. -/
def cut (n : Nat) (group : List Change) : List Change → List (List Change)
  | [] => if isShown group then [group.reverse] else []
  | c :: rest =>
    match c with
    | .keep old new length =>
      if 2 * n < length then
        (keepFirst n c :: group).reverse :: cut n [keepLast n (.keep old new length)] rest
      else cut n (c :: group) rest
    | .replace .. => cut n (c :: group) rest

/-- The changes in groups with `n` kept lines around them. -/
def groups (n : Nat) (cs : List Change) : List (List Change) :=
  cut n [] (trimEnd n (trimStart n cs))

end ChangeImpact.Diff
