import ChangeImpact.Path
import ChangeImpact.Text.Utf8

/-!
# File trees

The files, directories and links below a directory, by name. Links are followed
only to find a given path; whoever walks a tree sees them as links.
-/

namespace ChangeImpact

/-- What a name stands for. -/
inductive Entry where
  /-- A file with its content. -/
  | file (content : Bytes)
  /-- A directory. -/
  | directory (entries : List (String × Entry))
  /-- A link to a path. -/
  | link (target : String)
deriving Inhabited

/-- The entries of a directory by name. -/
abbrev FileTree := List (String × Entry)

namespace FileTree

/-- The entry of a name. -/
def find? (tree : FileTree) (name : String) : Option Entry :=
  (List.find? (·.1 = name) tree).map (·.2)

/-- The entries of a subdirectory; none when there is no such directory. -/
def below (tree : FileTree) (name : String) : FileTree :=
  match tree.find? name with
  | some (.directory entries) => entries
  | _ => []

/-- The tree with one more entry, and with the directories on the way to it. A directory
that is there already stays. -/
def insert (tree : FileTree) : List String → Entry → FileTree
  | [], _ => tree
  | [name], e =>
    match e, tree.find? name with
    | .directory _, some (.directory _) => tree
    | _, _ => tree.filter (·.1 ≠ name) ++ [(name, e)]
  | name :: rest, e =>
    tree.filter (·.1 ≠ name) ++ [(name, .directory (insert (tree.below name) rest e))]

/-- The names on a path. -/
def names (path : String) : List String :=
  (Path.segments path).filter fun s => s ≠ "" ∧ s ≠ "."

/-- The tree with some files, empty directories and links at given paths. -/
def ofLists (files : List (String × Bytes)) (directories : List String)
    (links : List (String × String)) : FileTree :=
  let entries := files.map (fun (path, content) => (path, Entry.file content)) ++
    directories.map (fun path => (path, Entry.directory [])) ++
    links.map (fun (path, target) => (path, Entry.link target))
  entries.foldl (fun tree (path, e) => tree.insert (names path) e) []

/-- The entry at the end of some names, links left alone. -/
def entry? (tree : FileTree) : List String → Option Entry
  | [] => some (.directory tree)
  | [name] => tree.find? name
  | name :: rest => entry? (tree.below name) rest

/-- The names under which a path is found from a directory when at most `links` links are
followed. `here` holds the names of the directory, the last first. A path that leaves the
tree is not found. -/
def locate (tree : FileTree) (links : Nat) (here : List String) (path : List String) :
    Option (List String) :=
  match path with
  | [] => some here.reverse
  | name :: rest =>
    if name = "" ∨ name = "." then locate tree links here rest
    else if name = ".." then
      match here with
      | [] => none
      | _ :: outer => locate tree links outer rest
    else
      match tree.entry? (name :: here).reverse with
      | some (.directory _) => locate tree links (name :: here) rest
      | some (.file _) => if rest.isEmpty then some (name :: here).reverse else none
      | some (.link target) =>
        match links with
        | 0 => none
        | links + 1 =>
          if Text.startsWith target "/" then none
          else locate tree links here (Path.segments target ++ rest)
      | none => none
termination_by (links, path.length)

/-- How many links are followed on the way to a file. -/
def linkLimit : Nat := 40

/-- The content of the file that a name in a directory leads to. -/
def content? (tree : FileTree) (directory : List String) (name : String) : Option Bytes :=
  match (tree.locate linkLimit directory.reverse [name]).bind tree.entry? with
  | some (.file content) => some content
  | _ => none

end FileTree

end ChangeImpact
