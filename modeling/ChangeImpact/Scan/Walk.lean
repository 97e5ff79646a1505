import ChangeImpact.Language
import ChangeImpact.Scan.FileTree
import ChangeImpact.Scan.Ignore

/-!
# Scanning a directory

A scan lists the source files below a directory in the order of their paths.
Hidden files count and links do not; nothing below a `.git` entry counts. A name
that may hold secrets is left out whatever the ignore files say. Of the kinds of
ignore files the first with a matching rule decides, and of the files of one
kind the one in the deepest directory; a directory that is left out is not
entered.
-/

namespace ChangeImpact

/-- A source file that a scan finds. -/
structure ScannedFile where
  /-- The path from the scanned directory. -/
  path : String
  /-- The language that its extension names. -/
  language : Language
  /-- Its content. -/
  content : Bytes
deriving DecidableEq, Repr

namespace Scan

/-- The names of ignore files, the strongest kind first. -/
def ignoreFiles : List String := [".rippleignore", ".ignore", ".gitignore"]

/-- The rules of one directory: one list for each kind of ignore file. -/
structure Layer where
  /-- How many directories lie above it, from the scanned one. -/
  depth : Nat
  /-- The rules by kind. -/
  rules : List (List IgnoreRule)

/-- The rules in force at a place. -/
structure Context where
  /-- The rules that come before all others, applied from the scanned directory. -/
  first : List IgnoreRule
  /-- The rules of the directories on the way, the deepest first. -/
  layers : List Layer

/-- What the ignore files of one kind say of a path: the deepest that decides. -/
def kindVerdict (layers : List Layer) (kind : Nat) (path : List String) (isDirectory : Bool) :
    Verdict :=
  layers.foldr (fun l rest =>
    (IgnoreRule.verdict (l.rules.getD kind []) (path.drop l.depth) isDirectory).orElse rest)
    .undecided

/-- What the rules in force say of a path. -/
def Context.verdict (c : Context) (path : List String) (isDirectory : Bool) : Verdict :=
  (IgnoreRule.verdict c.first path isDirectory).orElse
    ((List.range ignoreFiles.length).foldr
      (fun kind rest => (kindVerdict c.layers kind path isDirectory).orElse rest) .undecided)

/-- Whether an entry counts. -/
def Context.admits (c : Context) (path : List String) (isDirectory : Bool) : Bool :=
  path.getLast? ≠ some ".git" && c.verdict path isDirectory ≠ .ignored

/-- The rules of a directory. -/
def layerAt (tree : FileTree) (directory : List String) (depth : Nat) : Layer where
  depth := depth
  rules := ignoreFiles.map fun name =>
    ((tree.content? directory name).map IgnoreRule.ofFile).getD []

mutual
/-- The files that count below an entry. `root` holds the names of the scanned directory
and `path` those from there. -/
def walk (tree : FileTree) (root : List String) (c : Context) (path : List String) :
    Entry → List (List String × Bytes)
  | .file content => if c.admits path false then [(path, content)] else []
  | .link _ => []
  | .directory entries =>
    if c.admits path true then
      let layer := layerAt tree (root ++ path) path.length
      walkAll tree root { c with layers := layer :: c.layers } path entries
    else []

/-- The files that count below the entries of a directory. -/
def walkAll (tree : FileTree) (root : List String) (c : Context) (path : List String) :
    List (String × Entry) → List (List String × Bytes)
  | [] => []
  | (name, e) :: rest => walk tree root c (path ++ [name]) e ++ walkAll tree root c path rest
end

/-- The scanned path: a backslash in a name counts as a slash. -/
def pathText (path : List String) : String :=
  Text.replaceChar '\\' '/' ("/".intercalate path)

/-- A file as the scan reports it, if it has a language. -/
def report (found : List String × Bytes) : Option ScannedFile :=
  let path := pathText found.1
  (Language.detect path).map fun language => { path, language, content := found.2 }

/-- The source files below the directory at a path of a tree, ascending. The directory
itself always counts; nothing is found at a path that leads to no directory. -/
def run (tree : FileTree) (root : String) (excludeSensitive : Bool) : List ScannedFile :=
  match tree.locate FileTree.linkLimit [] (Path.segments root) with
  | none => []
  | some names =>
    match tree.entry? names with
    | some (.directory entries) =>
      let c : Context :=
        { first := if excludeSensitive then sensitiveRules else []
          layers := [layerAt tree names 0] }
      Ordered.sortBy (fun a b => decide (a.path ≤ b.path))
        ((walkAll tree names c [] entries).filterMap report)
    | _ => []

end Scan

end ChangeImpact
