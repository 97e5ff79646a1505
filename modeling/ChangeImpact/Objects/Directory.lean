import ChangeImpact.Failure
import ChangeImpact.Ordered
import ChangeImpact.Text.Pieces
import ChangeImpact.Text.Utf8

/-!
# Objects in a directory

Each object is a file below a root directory, its key the path. Keys whose
components are not all plain names are refused, so nothing outside the root is
touched. What the file system says of files in the place of directories, of
directories in the place of files and of names that hold a zero character holds
as well.
-/

namespace ChangeImpact

/-- The files and directories below a root, by their components. -/
structure ObjectDirectory where
  /-- The files with their content. -/
  files : List (List String × Bytes) := []
  /-- The directories, the root itself left out. -/
  directories : List (List String) := []
deriving DecidableEq, Repr

/-- Where a key leads. -/
structure ObjectPath where
  /-- The plain names on the way. -/
  parts : List String
  /-- Whether the key goes on after the last name, so that it can only mean a directory. -/
  trailing : Bool
deriving DecidableEq, Repr

namespace ObjectDirectory

/-- Where a key leads. It must be relative and hold plain names only; inner `.` and empty
components do not count. -/
def pathOf (key : String) : Except Failure ObjectPath :=
  let pieces := Text.pieces '/' key
  let parts := pieces.filter fun p => p ≠ "" ∧ p ≠ "."
  let first := pieces.headD ""
  if first = "" ∨ first = "." ∨ parts.contains ".." then
    .error (.storage ("invalid object key " ++ Text.quoted key))
  else .ok ⟨parts, pieces.getLast? = some "" ∨ pieces.getLast? = some "."⟩

/-- The content of a file. -/
def file? (d : ObjectDirectory) (parts : List String) : Option Bytes :=
  (d.files.find? (·.1 = parts)).map (·.2)

/-- The proper starts of a path, the shortest first. -/
def parents (parts : List String) : List (List String) :=
  (List.range parts.length).tail.map fun n => parts.take n

/-- Whether a file stands in the way of a path. -/
def blocked (d : ObjectDirectory) (parts : List String) : Bool :=
  (parents parts).any fun p => (d.file? p).isSome

/-- Whether names can be handed to the file system: none holds a zero character. -/
def nameable (parts : List String) : Bool :=
  parts.all fun p => !p.toList.contains '\x00'

/-- Store octets under a key. The directories on the way are made first. -/
def put (d : ObjectDirectory) (key : String) (data : Bytes) :
    Except Failure Unit × ObjectDirectory :=
  match pathOf key with
  | .error e => (.error e, d)
  | .ok ⟨parts, trailing⟩ =>
    if !nameable parts.dropLast ∨ d.blocked parts then (.error .fileSystem, d)
    else
      let made := (parents parts).foldl (fun ds p => Ordered.insertOnce p ds) d.directories
      let d := { d with directories := made }
      if trailing ∨ !nameable parts ∨ d.directories.contains parts then (.error .fileSystem, d)
      else
        let others := d.files.filter (·.1 ≠ parts)
        (.ok (), { d with files := others ++ [(parts, data)] })

/-- The octets under a key. -/
def get (d : ObjectDirectory) (key : String) : Except Failure Bytes := do
  let ⟨parts, trailing⟩ ← pathOf key
  if !nameable parts ∨ d.blocked parts ∨ d.directories.contains parts then .error .fileSystem
  else
    match d.file? parts with
    | none => .error (.notFound ("object " ++ key))
    | some data => if trailing then .error .fileSystem else .ok data

/-- Whether there is a file under a key. -/
def holds (d : ObjectDirectory) (key : String) : Except Failure Bool := do
  let ⟨parts, trailing⟩ ← pathOf key
  .ok (!trailing && (d.file? parts).isSome)

/-- Remove the file under a key, if there is one. -/
def delete (d : ObjectDirectory) (key : String) : Except Failure Unit × ObjectDirectory :=
  match pathOf key with
  | .error e => (.error e, d)
  | .ok ⟨parts, trailing⟩ =>
    if !nameable parts ∨ d.blocked parts ∨ d.directories.contains parts then
      (.error .fileSystem, d)
    else
      match d.file? parts with
      | none => (.ok (), d)
      | some _ =>
        if trailing then (.error .fileSystem, d)
        else (.ok (), { d with files := d.files.filter (·.1 ≠ parts) })

end ObjectDirectory

end ChangeImpact
