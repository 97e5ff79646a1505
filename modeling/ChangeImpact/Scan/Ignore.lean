import ChangeImpact.Scan.Pattern
import ChangeImpact.Text.Pieces

/-!
# Ignore rules

A line of an ignore file is a glob that says which paths to leave out, or after
a `!` which to keep. It applies below the directory of its file. Of the rules
that match a path the last one decides.
-/

namespace ChangeImpact

/-- One rule about paths. -/
structure IgnoreRule where
  /-- The paths that it is about. -/
  glob : List Glob.Piece
  /-- Whether it keeps them instead of leaving them out. -/
  keeps : Bool := false
  /-- Whether it is about directories only. -/
  directoriesOnly : Bool := false

/-- What rules say of a path. -/
inductive Verdict where
  | ignored
  | kept
  | undecided
deriving DecidableEq, Repr

/-- The first verdict, unless it is undecided. -/
def Verdict.orElse (first second : Verdict) : Verdict :=
  if first = .undecided then second else first

namespace IgnoreRule

/-- The line without white space at its end, unless the last blank is escaped. -/
def trimLine (line : String) : String :=
  if Text.endsWith line "\\ " then line else Text.trimEndBy Text.isBlank line

/-- A line in its parts: whether it keeps, whether it only holds in its own directory, and
the glob. A `!` or `#` at the start can be escaped. -/
def opening (line : List Char) : Bool × Bool × List Char :=
  match line with
  | '\\' :: '!' :: rest => (false, false, '!' :: rest)
  | '\\' :: '#' :: rest => (false, false, '#' :: rest)
  | '!' :: '/' :: rest => (true, true, rest)
  | '!' :: rest => (true, false, rest)
  | '/' :: rest => (false, true, rest)
  | rest => (false, false, rest)

/-- The glob without the slash at its end, which says that it is about directories, and
without the escape of that slash. -/
def closing (glob : List Char) : Bool × List Char :=
  match glob.reverse with
  | '/' :: '\\' :: rest => (true, rest.reverse)
  | '/' :: rest => (true, rest.reverse)
  | _ => (false, glob)

/-- The glob for whole paths. One without a slash holds at any depth, and one that ends in
`/**` is about what lies in the directory, not about the directory. -/
def wholePath (anchored : Bool) (glob : List Char) : List Char :=
  let startsDeep := ['*', '*', '/'].isPrefixOf glob || glob == ['*', '*']
  let glob :=
    if anchored || glob.contains '/' || startsDeep then glob else '*' :: '*' :: '/' :: glob
  if ['/', '*', '*'].isSuffixOf glob then glob ++ ['/', '*'] else glob

/-- The rule that a line spells. Comments, empty lines and invalid globs make none. -/
def ofLine? (line : String) : Option IgnoreRule :=
  if Text.startsWith line "#" then none
  else
    let line := trimLine line
    if line = "" then none
    else
      let (keeps, anchored, glob) := opening line.toList
      let (directoriesOnly, glob) := closing glob
      (Glob.ofText? (String.ofList (wholePath anchored glob))).map fun glob =>
        { glob, keeps, directoriesOnly }

/-- Octets without the carriage return at their end. -/
def withoutReturn (line : Bytes) : Bytes :=
  if line.getLast? = some 13 then line.dropLast else line

/-- The lines of a file. A line feed ends a line, with a carriage return before it or not. -/
def lines : Bytes → List Bytes
  | [] => []
  | b :: rest =>
    let start := rest.takeWhile (· ≠ 10)
    if b = 10 then [] :: lines rest
    else if start.length < rest.length then
      withoutReturn (b :: start) :: lines (rest.drop (start.length + 1))
    else [b :: rest]
termination_by octets => octets.length
decreasing_by
  all_goals simp only [List.length_cons, List.length_drop]
  all_goals omega

/-- The texts of some lines up to the first one that is no text. -/
def readable : List Bytes → List String
  | [] => []
  | line :: rest =>
    match Utf8.decode? line with
    | some text => text :: readable rest
    | none => []

/-- The byte order mark, which does not count at the start of a file. -/
def mark : Char := Char.ofNat 0xFEFF

/-- The rules of an ignore file in order. -/
def ofFile (content : Bytes) : List IgnoreRule :=
  match readable (lines content) with
  | [] => []
  | first :: rest => (Text.trimStartBy (· == mark) first :: rest).filterMap ofLine?

/-- Whether a rule is about a path. -/
def covers (r : IgnoreRule) (path : List String) (isDirectory : Bool) : Bool :=
  (isDirectory || !r.directoriesOnly) && Glob.covers r.glob (Utf8.encode ("/".intercalate path))

/-- What some rules say of a path: the last one that is about it decides. -/
def verdict (rules : List IgnoreRule) (path : List String) (isDirectory : Bool) : Verdict :=
  match rules.reverse.find? fun r => r.covers path isDirectory with
  | some r => if r.keeps then .kept else .ignored
  | none => .undecided

end IgnoreRule

/-- The names of files and directories that may hold secrets. -/
def sensitiveRules : List IgnoreRule :=
  [".env", ".env.*", "*.pem", "*.key", "*.p12", "*secret*", "*secrets*", "*credential*",
    "id_rsa", "id_dsa"].filterMap IgnoreRule.ofLine?

end ChangeImpact
