import ChangeImpact.Diff.Script

/-!
# Settling a script

Two passes move the runs of a script. Insertions slide up over kept lines that
end like them, and then down over kept lines that start like them, so that runs
of one kind meet and join. The pass is a walk over the script with the current
edit between those before and those after it.
-/

namespace ChangeImpact.Diff

/-- A place in a script: the edits before it, the nearest first, the current edit, and the
edits after it. -/
structure Place where
  /-- Edits before, the nearest first. -/
  before : List Edit
  /-- The current edit. -/
  here : Edit
  /-- Edits after. -/
  after : List Edit
deriving Repr

namespace Edit

/-- The edit `t` lines earlier in both lists. -/
def earlier (e : Edit) (t : Nat) : Edit := { e with old := e.old - t, new := e.new - t }

/-- The edit `t` lines later in both lists. -/
def later (e : Edit) (t : Nat) : Edit := { e with old := e.old + t, new := e.new + t }

/-- The edit with `t` more lines at the end. -/
def grow (e : Edit) (t : Nat) : Edit := { e with length := e.length + t }

/-- The edit with `t` lines fewer at the end. -/
def cutEnd (e : Edit) (t : Nat) : Edit := { e with length := e.length - t }

/-- The edit with `t` lines fewer at the start. -/
def cutStart (e : Edit) (t : Nat) : Edit :=
  { e with old := e.old + t, new := e.new + t, length := e.length - t }

end Edit

/-- The lines that a kept run and the current edit's new lines have in common at their ends. -/
def slideUp (a b : Array String) (kept here : Edit) : Nat :=
  if here.action = .insert then
    commonSuffix a b kept.old here.new kept.oldEnd here.newEnd
  else 0

/-- The lines that a kept run and the current edit's new lines have in common at their starts. -/
def slideDown (a b : Array String) (kept here : Edit) : Nat :=
  if here.action = .insert then
    commonPrefix a b kept.old kept.oldEnd here.new here.newEnd
  else 0

/-- Lengthen a kept run at its start, or make one of `t` lines that ends at the given places. -/
def keepBefore (t oldEnd newEnd : Nat) : List Edit → List Edit
  | e :: rest =>
    if e.action = .keep then (e.earlier t).grow t :: rest
    else ⟨.keep, oldEnd - t, newEnd - t, t⟩ :: e :: rest
  | [] => [⟨.keep, oldEnd - t, newEnd - t, t⟩]

/-- Lengthen a kept run at its end, or make one of `t` lines that starts at the given places. -/
def keepAfter (t old new : Nat) : List Edit → List Edit
  | e :: rest =>
    if e.action = .keep then e.grow t :: rest else ⟨.keep, old, new, t⟩ :: e :: rest
  | [] => [⟨.keep, old, new, t⟩]

/-- The total weight of the edits on one side. -/
def weight (es : List Edit) : Nat := es.foldr (fun e n => e.length + 1 + n) 0

/-- Move the current edit up: it slides over kept lines, changes places with an edit of
the other kind, and joins one of its own kind. `fuel` bounds the number of moves. -/
def moveUp (a b : Array String) : Nat → Place → Place
  | 0, p => p
  | fuel + 1, p =>
    match p.before with
    | [] => p
    | prev :: before =>
      if prev.action = .keep then
        let t := slideUp a b prev p.here
        if 0 < t then
          let after := keepBefore t prev.oldEnd p.here.newEnd p.after
          let rest := prev.cutEnd t
          let before := if rest.length = 0 then before else rest :: before
          moveUp a b fuel ⟨before, p.here.earlier t, after⟩
        else if prev.length = 0 then moveUp a b fuel ⟨before, p.here, p.after⟩
        else p
      else if prev.action = p.here.action then
        moveUp a b fuel ⟨before, prev.grow p.here.length, p.after⟩
      else moveUp a b fuel ⟨before, p.here, prev :: p.after⟩

/-- Move the current edit down, by the same rules. -/
def moveDown (a b : Array String) : Nat → Place → Place
  | 0, p => p
  | fuel + 1, p =>
    match p.after with
    | [] => p
    | next :: after =>
      if next.action = .keep then
        let t := slideDown a b next p.here
        if 0 < t then
          let before := keepAfter t next.old p.here.new p.before
          let rest := next.cutStart t
          let after := if rest.length = 0 then after else rest :: after
          moveDown a b fuel ⟨before, p.here.later t, after⟩
        else if next.length = 0 then moveDown a b fuel ⟨p.before, p.here, after⟩
        else p
      else if next.action = p.here.action then
        moveDown a b fuel ⟨p.before, p.here.grow next.length, after⟩
      else moveDown a b fuel ⟨next :: p.before, p.here, after⟩

/-- Move every edit with an action up and then down, from the first on. `fuel` bounds the
number of edits visited. -/
def settlePass (a b : Array String) (action : Action) : Nat → List Edit → List Edit → List Edit
  | 0, before, rest => before.reverse ++ rest
  | _ + 1, before, [] => before.reverse
  | fuel + 1, before, e :: rest =>
    if e.action = action then
      let up := moveUp a b (weight before) ⟨before, e, rest⟩
      let down := moveDown a b (weight up.after) up
      settlePass a b action fuel (down.here :: down.before) down.after
    else settlePass a b action fuel (e :: before) rest

/-- The settled script: deletions first, then insertions. -/
def settle (a b : Array String) (edits : List Edit) : List Edit :=
  let fuel (es : List Edit) := (weight es + 1) * (weight es + 1)
  let deletions := settlePass a b .delete (fuel edits) [] edits
  settlePass a b .insert (fuel deletions) [] deletions

end ChangeImpact.Diff
