import ChangeImpact.Diff.Script

/-!
# Shortest edit scripts in linear space

The search for a shortest script runs from both ends at once. On each diagonal
`k` it notes how far it got; where the two searches meet, the problem splits in
two smaller ones.
-/

namespace ChangeImpact.Diff

/-- How far a search got on each diagonal, from `-offset` up. -/
structure Frontier where
  /-- The greatest diagonal. -/
  offset : Nat
  /-- The furthest place in the old list per diagonal. -/
  reach : Array Nat

namespace Frontier

/-- Nothing reached. -/
def start (offset : Nat) : Frontier := ⟨offset, Array.replicate (2 * offset + 1) 0⟩

/-- The furthest place on a diagonal. -/
def get (f : Frontier) (k : Int) : Nat :=
  f.reach.getD (k + f.offset).toNat 0

/-- Note the furthest place on a diagonal. -/
def set (f : Frontier) (k : Int) (x : Nat) : Frontier :=
  { f with reach := f.reach.setIfInBounds (k + f.offset).toNat x }

/-- Where diagonal `k` is entered with `d` edits: from the diagonal beside it that got
further. -/
def enter (f : Frontier) (d k : Int) : Nat :=
  if k = -d ∨ (k ≠ d ∧ f.get (k - 1) < f.get (k + 1)) then f.get (k + 1) else f.get (k - 1) + 1

end Frontier

/-- The part of both lists in which a script is sought. -/
structure Box where
  /-- Start in the old list. -/
  oldStart : Nat
  /-- End in the old list. -/
  oldStop : Nat
  /-- Start in the new list. -/
  newStart : Nat
  /-- End in the new list. -/
  newStop : Nat
deriving DecidableEq, Repr

namespace Box

/-- The lines of the old list. -/
def rows (b : Box) : Nat := b.oldStop - b.oldStart

/-- The lines of the new list. -/
def columns (b : Box) : Nat := b.newStop - b.newStart

end Box

/-- The diagonals that `d` edits can reach, the greatest first. -/
def diagonals (d : Nat) : List Int :=
  (List.range (d + 1)).map fun (i : Nat) => (d : Int) - 2 * (i : Int)

/-- One forward step on each diagonal with `d` edits. Ends early where the searches meet. -/
def advance (a b : Array String) (box : Box) (d : Nat) (backward : Frontier) :
    List Int → Frontier → (Option (Nat × Nat)) × Frontier
  | [], f => (none, f)
  | k :: ks, f =>
    let n := box.rows
    let m := box.columns
    let delta := (n : Int) - m
    let x0 := f.enter d k
    let y0 := ((x0 : Int) - k).toNat
    let run :=
      if x0 < n ∧ y0 < m then
        commonPrefix a b (box.oldStart + x0) box.oldStop (box.newStart + y0) box.newStop
      else 0
    let x := x0 + run
    let f := f.set k x
    if delta % 2 ≠ 0 ∧ (k - delta).natAbs + 1 ≤ d ∧ n ≤ x + backward.get (delta - k) then
      (some (box.oldStart + x0, box.newStart + y0), f)
    else advance a b box d backward ks f

/-- One backward step on each diagonal with `d` edits. Ends early where the searches meet. -/
def retreat (a b : Array String) (box : Box) (d : Nat) (forward : Frontier) :
    List Int → Frontier → (Option (Nat × Nat)) × Frontier
  | [], f => (none, f)
  | k :: ks, f =>
    let n := box.rows
    let m := box.columns
    let delta := (n : Int) - m
    let x0 := f.enter d k
    let y0 := ((x0 : Int) - k).toNat
    let run :=
      if x0 < n ∧ y0 < m then
        commonSuffix a b box.oldStart box.newStart (box.oldStop - x0) (box.newStop - y0)
      else 0
    let x := x0 + run
    let y := y0 + run
    let f := f.set k x
    if delta % 2 = 0 ∧ (k - delta).natAbs ≤ d ∧ n ≤ x + forward.get (delta - k) then
      (some (box.oldStart + (n - x), box.newStart + (m - y)), f)
    else retreat a b box d forward ks f

/-- Search with `d`, `d + 1`, … edits, `rounds` times at most. -/
def search (a b : Array String) (box : Box) :
    Nat → Nat → Frontier → Frontier → Option (Nat × Nat)
  | 0, _, _, _ => none
  | rounds + 1, d, forward, backward =>
    match advance a b box d backward (diagonals d) forward with
    | (some place, _) => some place
    | (none, forward) =>
      match retreat a b box d forward (diagonals d) backward with
      | (some place, _) => some place
      | (none, backward) => search a b box rounds (d + 1) forward backward

/-- A place through which a shortest script of the box passes. -/
def middle (a b : Array String) (box : Box) : Option (Nat × Nat) :=
  let limit := (box.rows + box.columns + 1) / 2 + 1
  search a b box limit 0 (.start (limit + 1)) (.start (limit + 1))

/-- The lines of both lists. -/
def Box.total (b : Box) : Nat := b.rows + b.columns

/-- Whether a place splits a box into two smaller ones. -/
def Box.splitsAt (box : Box) (x y : Nat) : Bool :=
  box.oldStart ≤ x && x ≤ box.oldStop && box.newStart ≤ y && y ≤ box.newStop &&
    box.oldStart + box.newStart < x + y && x + y < box.oldStop + box.newStop

theorem Box.total_before_lt {box : Box} {x y : Nat} (h : box.splitsAt x y = true) :
    (Box.mk box.oldStart x box.newStart y).total < box.total := by
  simp only [splitsAt, Bool.and_eq_true, decide_eq_true_eq] at h
  simp only [total, rows, columns]
  omega

theorem Box.total_after_lt {box : Box} {x y : Nat} (h : box.splitsAt x y = true) :
    (Box.mk x box.oldStop y box.newStop).total < box.total := by
  simp only [splitsAt, Bool.and_eq_true, decide_eq_true_eq] at h
  simp only [total, rows, columns]
  omega

/-- The box without `p` lines in front and `s` lines at the end of both lists. -/
def Box.shrink (box : Box) (p s : Nat) : Box :=
  ⟨box.oldStart + p, box.oldStop - s, box.newStart + p, box.newStop - s⟩

theorem Box.total_shrink_le (box : Box) (p s : Nat) : (box.shrink p s).total ≤ box.total := by
  simp only [shrink, total, rows, columns]
  omega

/-- A run that both lists keep, unless it is empty. -/
def keepRun (old new length : Nat) : List Edit :=
  if length = 0 then [] else [⟨.keep, old, new, length⟩]

/-- The script that drops the old lines of a box and adds the new ones. -/
def replaceAll (box : Box) : List Edit :=
  (if box.rows = 0 then [] else [⟨.delete, box.oldStart, box.newStart, box.rows⟩]) ++
    (if box.columns = 0 then [] else [⟨.insert, box.oldStart, box.newStart, box.columns⟩])

/-- A script for a box: the common lines at both ends are kept; what lies between is
split where the searches meet, or replaced as a whole. -/
def solve (a b : Array String) (box : Box) : List Edit :=
  let p := commonPrefix a b box.oldStart box.oldStop box.newStart box.newStop
  let s := commonSuffix a b (box.oldStart + p) (box.newStart + p) box.oldStop box.newStop
  let inner := box.shrink p s
  let between : List Edit :=
    if inner.rows = 0 ∨ inner.columns = 0 then replaceAll inner
    else
      match middle a b inner with
      | none => replaceAll inner
      | some (x, y) =>
        if h : inner.splitsAt x y = true then
          have := Nat.lt_of_lt_of_le (Box.total_before_lt h) (box.total_shrink_le p s)
          have := Nat.lt_of_lt_of_le (Box.total_after_lt h) (box.total_shrink_le p s)
          solve a b ⟨inner.oldStart, x, inner.newStart, y⟩ ++
            solve a b ⟨x, inner.oldStop, y, inner.newStop⟩
        else replaceAll inner
  keepRun box.oldStart box.newStart p ++ between ++ keepRun inner.oldStop inner.newStop s
termination_by box.total

/-- A script that turns `a` into `b`. -/
def script (a b : Array String) : List Edit :=
  solve a b ⟨0, a.size, 0, b.size⟩

end ChangeImpact.Diff
