import ChangeImpact.Text.Pieces

/-!
# Languages

The programming languages whose files are analysed, and how a path tells which
of them a file is written in: by its extension, whatever the case.
-/

namespace ChangeImpact

/-- A programming language with rules for symbol extraction. -/
inductive Language where
  | typeScript
  | tsx
  | javaScript
  | python
  | go
  | rust
  | java
  | c
  | cpp
  | cSharp
  | php
  | ruby
deriving DecidableEq, Repr, Inhabited

namespace Language

/-- All languages, in the order in which extensions are looked up. -/
def all : List Language :=
  [typeScript, tsx, javaScript, python, go, rust, java, c, cpp, cSharp, php, ruby]

/-- The name that snapshots carry. TSX differs from TypeScript in grammar only. -/
def name : Language → String
  | typeScript | tsx => "typescript"
  | javaScript => "javascript"
  | python => "python"
  | go => "go"
  | rust => "rust"
  | java => "java"
  | c => "c"
  | cpp => "cpp"
  | cSharp => "c_sharp"
  | php => "php"
  | ruby => "ruby"

/-- The extensions of a language's files. -/
def extensions : Language → List String
  | typeScript => ["ts", "mts", "cts"]
  | tsx => ["tsx"]
  | javaScript => ["js", "jsx", "mjs", "cjs"]
  | python => ["py"]
  | go => ["go"]
  | rust => ["rs"]
  | java => ["java"]
  | c => ["c", "h"]
  | cpp => ["cpp", "cc", "cxx", "hpp", "hh", "hxx"]
  | cSharp => ["cs"]
  | php => ["php"]
  | ruby => ["rb"]

/-- The last component of a path; empty and `.` components do not count, and `..` names
no file. -/
def fileName? (path : String) : Option String :=
  let parts := (Text.pieces '/' path).filter fun part => part ≠ "" ∧ part ≠ "."
  parts.getLast?.filter (· ≠ "..")

/-- The part of a file name after its last dot, unless that dot leads the name. -/
def extension? (path : String) : Option String :=
  match fileName? path with
  | none => none
  | some name =>
    match Text.splitLast? "." name with
    | none => none
    | some (before, after) => if before = "" then none else some after

/-- The language of a file by its extension. No listed extension holds a letter to
which lower-casing takes a character outside ASCII, so ASCII case decides. -/
def detect (path : String) : Option Language :=
  match extension? path with
  | none => none
  | some ext => all.find? fun l => l.extensions.contains (Text.asciiLower ext)

end Language

end ChangeImpact
