import ChangeImpact.Scan.Glob

/-!
# Reading globs

`*` and `?` stand for characters other than the slash, `**` between slashes for
directories, `[ab]` and `[!ab]` for one octet, and braces group alternatives. A
backslash takes the special meaning from the next character. A glob with an open
group or class is invalid.
-/

namespace ChangeImpact.Glob

/-- The ranges of characters between the brackets of a class, the last first. A `-` first
or last stands for itself; elsewhere it joins its neighbours, which have to ascend. -/
def classRanges (done : List (Char × Char)) : List Char → Option (List (Char × Char))
  | [] => some done
  | ['-'] => some (('-', '-') :: done)
  | '-' :: c :: rest =>
    match done with
    | [] => classRanges [('-', '-')] (c :: rest)
    | (low, _) :: before => if c < low then none else classRanges ((low, c) :: before) rest
  | c :: rest => classRanges ((c, c) :: done) rest

/-- The octets that a range of characters admits. Where a character has several octets,
the outer ones stand by themselves and the range runs between the inner ones. -/
def octetRanges (range : Char × Char) : List (UInt8 × UInt8) :=
  let low := String.utf8EncodeChar range.1
  let high := String.utf8EncodeChar range.2
  let single (b : UInt8) : UInt8 × UInt8 := (b, b)
  if range.1 = range.2 then low.map single
  else
    low.dropLast.map single ++ [(low.getLast?.getD 0, high.headD 0)] ++ high.tail.map single

/-- A group of alternatives that is being read. -/
structure Group where
  /-- The pieces before the group, the last first. -/
  outer : List Piece
  /-- The finished branches. -/
  finished : List (List Piece)

/-- What two stars make of the pieces before them, the last first, and whether they take
the slash that follows. They stand for directories only where a slash or the end is on
both sides. -/
def doubleStar (inGroup : Bool) (previous : Option Char) (branch : List Piece)
    (next : Option Char) : List Piece × Bool :=
  let plain := (.star :: .star :: branch, false)
  match branch with
  | [] => if next = none ∨ next = some '/' then ([.leadingDirectories], next.isSome) else plain
  | last :: before =>
    let starts := previous = some '/' ∨
      (inGroup = true ∧ (previous = some ',' ∨ previous = some '\x7b'))
    let atEnd := next = none ∨ (inGroup = true ∧ (next = some ',' ∨ next = some '\x7d'))
    if ¬ starts ∨ ¬ (atEnd ∨ next = some '/') then plain
    else
      match last with
      | .leadingDirectories => (branch, !atEnd)
      | .everythingBelow => (branch, !atEnd)
      | _ =>
        if atEnd then (.everythingBelow :: before, false)
        else (.innerDirectories :: before, true)

/-- Whether a class is negated, and its text up to the end of the glob. -/
def classStart : List Char → Bool × List Char
  | '!' :: rest => (true, rest)
  | '^' :: rest => (true, rest)
  | rest => (false, rest)

/-- The class that is opened before some text, and the text after it. A closing bracket
that comes first belongs to the class. -/
def classAt (cs : List Char) : Option (Piece × List Char) :=
  match classStart cs with
  | (_, []) => none
  | (negated, first :: more) =>
    match more.dropWhile (· ≠ ']') with
    | [] => none
    | _ :: after =>
      (classRanges [] (first :: more.takeWhile (· ≠ ']'))).map fun ranges =>
        (.oneOf negated (ranges.reverse.flatMap octetRanges), after)

theorem classStart_length (cs : List Char) : (classStart cs).2.length ≤ cs.length := by
  unfold classStart
  split <;> simp

theorem classAt_length {cs after : List Char} {p : Piece} (h : classAt cs = some (p, after)) :
    after.length < cs.length := by
  have hs := classStart_length cs
  unfold classAt at h
  split at h
  · cases h
  · rename_i first more hc
    split at h
    · cases h
    · rename_i c rest hd
      simp only [Option.map_eq_some_iff, Prod.mk.injEq] at h
      obtain ⟨_, _, _, rfl⟩ := h
      have hl := (List.dropWhile_suffix (l := more) (fun c => decide (c ≠ ']'))).length_le
      rw [hd] at hl
      rw [hc] at hs
      simp only [List.length_cons] at hl hs
      omega

/-- Read the rest of a glob. `branch` holds the pieces of the current branch, the last
first. -/
def readFrom (groups : List Group) (branch : List Piece) (previous : Option Char)
    (cs : List Char) : Option (List Piece) :=
  match cs with
  | [] => if groups.isEmpty then some branch.reverse else none
  | '?' :: rest => readFrom groups (.any :: branch) (some '?') rest
  | '*' :: '*' :: rest =>
    let (branch, takes) := doubleStar (!groups.isEmpty) previous branch rest.head?
    readFrom groups branch (some (if takes then '/' else '*')) (rest.drop (if takes then 1 else 0))
  | '*' :: rest => readFrom groups (.star :: branch) (some '*') rest
  | '[' :: rest =>
    match _h : classAt rest with
    | none => none
    | some (p, after) => readFrom groups (p :: branch) (some ']') after
  | '\x7b' :: rest => readFrom (⟨branch, []⟩ :: groups) [] (some '\x7b') rest
  | '\x7d' :: rest =>
    match groups with
    | [] => none
    | g :: groups =>
      readFrom groups (.alternatives (g.finished ++ [branch.reverse]) :: g.outer) (some '\x7d') rest
  | ',' :: rest =>
    match groups with
    | [] => readFrom [] (.literal ',' :: branch) (some ',') rest
    | g :: groups =>
      readFrom ({ g with finished := g.finished ++ [branch.reverse] } :: groups) [] (some ',') rest
  | '\\' :: c :: rest => readFrom groups (.literal c :: branch) (some c) rest
  | ['\\'] => none
  | c :: rest => readFrom groups (.literal c :: branch) (some c) rest
termination_by cs.length
decreasing_by
  all_goals simp only [List.length_cons, List.length_drop]
  all_goals first
    | omega
    | exact Nat.lt_of_lt_of_le (classAt_length _h) (Nat.le_succ _)

/-- The glob that a text spells, unless it is invalid. -/
def ofText? (text : String) : Option (List Piece) :=
  readFrom [] [] none text.toList

end ChangeImpact.Glob
