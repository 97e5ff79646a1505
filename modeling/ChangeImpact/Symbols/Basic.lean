import ChangeImpact.Ordered
import ChangeImpact.Text.Pieces

/-!
# Symbols of a file

What one source file contributes to the analysis, in the same shape for every
language: what it imports, exports, defines and calls. Lines count from 1; a
line of 0 is unknown.
-/

namespace ChangeImpact

/-- The kind of a declared or exported symbol. -/
inductive SymbolKind where
  | function
  | classType
  | method
  | interface
  | type
  | variable
  | default
deriving DecidableEq, Repr, Inhabited

/-- One import statement. -/
structure Import where
  /-- What is imported from, as written or normalised by the language's rules. -/
  source : String
  /-- The names bound, without repetition, in the order of their first occurrence. -/
  symbols : List String := []
  /-- Whether the source's default export is bound. -/
  isDefault : Bool := false
  /-- Whether the import depends on the whole source. -/
  isWildcard : Bool := false
  /-- The line of the statement. -/
  line : Nat := 0
deriving DecidableEq, Repr, Inhabited

namespace Import

/-- A path that is looked up next to the importing file. -/
def isRelativePath (source : String) : Bool :=
  Text.startsWith source "./" || Text.startsWith source "../"

/-- Whether the import is looked up next to the importing file. -/
def isRelative (i : Import) : Bool := isRelativePath i.source

/-- Whether the import binds no explicit names, and so depends on the whole source. -/
def bindsEverything (i : Import) : Bool := i.isWildcard || i.symbols.isEmpty

/-- The import with one more name. -/
def bind (i : Import) (name : String) : Import :=
  { i with symbols := Ordered.insertOnce name i.symbols }

/-- The import with more names. -/
def bindAll (i : Import) (names : List String) : Import :=
  names.foldl bind i

/-- The import as one that depends on the whole source. -/
def wildcard (i : Import) : Import := { i with isWildcard := true }

/-- An import of the whole of `source`. -/
def whole (source : String) (line : Nat) : Import := { source, line, isWildcard := true }

end Import

/-- A symbol that a file offers to others. -/
structure Export where
  /-- The exported name. -/
  name : String
  /-- Its kind. -/
  kind : SymbolKind
  /-- What a user of it sees: a change of this text is a change of the export. -/
  signature : String := ""
  /-- The line of the declaration. -/
  line : Nat := 0
deriving DecidableEq, Repr, Inhabited

/-- A symbol that a file defines. -/
structure Definition where
  /-- The defined name. -/
  name : String
  /-- Its kind. -/
  kind : SymbolKind
  /-- Its signature. -/
  signature : String := ""
  /-- The line on which it starts. -/
  startLine : Nat := 0
  /-- The line on which it ends. -/
  endLine : Nat := 0
  /-- The type that it belongs to. -/
  parent : Option String := none
deriving DecidableEq, Repr, Inhabited

/-- A call that a file makes. -/
structure Call where
  /-- What is called, as written. -/
  callee : String
  /-- The line of the call. -/
  line : Nat := 0
  /-- The definition that makes the call. -/
  caller : Option String := none
deriving DecidableEq, Repr, Inhabited

/-- Everything extracted from one source file. -/
structure ParsedFile where
  /-- The path of the file in its project. -/
  path : String
  /-- The name of its language. -/
  language : String
  /-- Its imports in source order. -/
  imports : List Import := []
  /-- Its exports in source order. -/
  exports : List Export := []
  /-- Its definitions in source order. -/
  definitions : List Definition := []
  /-- Its calls in source order. -/
  calls : List Call := []
deriving DecidableEq, Repr, Inhabited

namespace ParsedFile

/-- The names exported, in ascending order. -/
def exportNames (f : ParsedFile) : List String :=
  Ordered.ofList (f.exports.map (·.name))

/-- Whether the file has a default export. -/
def hasDefaultExport (f : ParsedFile) : Bool :=
  f.exports.any (·.kind = .default)

end ParsedFile

end ChangeImpact
