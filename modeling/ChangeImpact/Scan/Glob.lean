import ChangeImpact.Text.Utf8

/-!
# Globs

A glob is a list of pieces that is matched against a whole path. Matching works
on octets: each piece says which ends of the path can remain after it. Only the
pieces that stand for whole directories, and character classes, cross a slash.
-/

namespace ChangeImpact.Glob

/-- A piece of a glob. -/
inductive Piece where
  /-- One character. -/
  | literal (c : Char)
  /-- Any octet but a slash. -/
  | any
  /-- Any number of octets but slashes. -/
  | star
  /-- Any directories at the start of a path. -/
  | leadingDirectories
  /-- A slash and everything after it. -/
  | everythingBelow
  /-- A slash, or any directories between two slashes. -/
  | innerDirectories
  /-- One octet inside, or outside, of some ranges. -/
  | oneOf (negated : Bool) (ranges : List (UInt8 × UInt8))
  /-- One of several globs. -/
  | alternatives (branches : List (List Piece))

/-- The slash. -/
def slash : UInt8 := 47

/-- What can remain after any number of octets without a slash. -/
def afterStar : Bytes → List Bytes
  | [] => [[]]
  | b :: rest => (b :: rest) :: (if b = slash then [] else afterStar rest)

/-- What can remain after a slash anywhere. -/
def afterSlashes : Bytes → List Bytes
  | [] => []
  | b :: rest => if b = slash then rest :: afterSlashes rest else afterSlashes rest

/-- What remains after a slash at the start. -/
def afterSlash : Bytes → Option Bytes
  | b :: rest => if b = slash then some rest else none
  | [] => none

/-- What can remain after any number of octets. -/
def afterAny : Bytes → List Bytes
  | [] => [[]]
  | b :: rest => (b :: rest) :: afterAny rest

/-- Whether an octet lies in one of some ranges. -/
def inRanges (b : UInt8) (ranges : List (UInt8 × UInt8)) : Bool :=
  ranges.any fun (low, high) => low ≤ b && b ≤ high

mutual
/-- Whether a piece stands for nothing at all, as a group without content does. -/
def Piece.isVoid : Piece → Bool
  | .alternatives branches => allVoid branches
  | _ => false

/-- Whether all pieces of a glob stand for nothing. -/
def areVoid : List Piece → Bool
  | [] => true
  | p :: ps => p.isVoid && areVoid ps

/-- Whether all branches of a group stand for nothing. -/
def allVoid : List (List Piece) → Bool
  | [] => true
  | b :: bs => areVoid b && allVoid bs
end

mutual
/-- What can remain of a path after a piece. -/
def Piece.ends : Piece → Bytes → List Bytes
  | .literal c, s =>
    let octets := String.utf8EncodeChar c
    if octets.isPrefixOf s then [s.drop octets.length] else []
  | .any, s =>
    match s with
    | b :: rest => if b = slash then [] else [rest]
    | [] => []
  | .star, s => afterStar s
  | .leadingDirectories, s => s :: afterSlashes s
  | .everythingBelow, s => ((afterSlash s).map afterAny).getD []
  | .innerDirectories, s => ((afterSlash s).map fun rest => rest :: afterSlashes rest).getD []
  | .oneOf negated ranges, s =>
    match s with
    | b :: rest => if inRanges b ranges = negated then [] else [rest]
    | [] => []
  | .alternatives branches, s => if allVoid branches then [s] else branchEnds branches s

/-- What can remain of a path after some pieces. -/
def ends : List Piece → Bytes → List Bytes
  | [], s => [s]
  | p :: ps, s => ((p.ends s).eraseDups).flatMap (ends ps)

/-- What can remain of a path after one of some globs. A branch that stands for nothing
does not count. -/
def branchEnds : List (List Piece) → Bytes → List Bytes
  | [], _ => []
  | b :: bs, s => (if areVoid b then [] else ends b s) ++ branchEnds bs s
end

/-- Whether a glob matches a path. -/
def covers (pieces : List Piece) (path : Bytes) : Bool :=
  match pieces with
  | [.leadingDirectories] => true
  | _ => (ends pieces path).any (·.isEmpty)

end ChangeImpact.Glob
