import ChangeImpact.Syntax.Node
import ChangeImpact.Symbols.Basic
import ChangeImpact.Language

/-!
# Facets of a file

A file is read under four facets: imports, exports, definitions and calls. The
facets are independent: one that a language does not support, or that fails, is
left empty and reported, and the others are kept.
-/

namespace ChangeImpact

/-- One of the four readings of a file. -/
inductive Facet where
  | imports
  | exports
  | definitions
  | calls
deriving DecidableEq, Repr, Inhabited

/-- The name of a facet in messages. -/
def Facet.name : Facet → String
  | imports => "imports"
  | exports => "exports"
  | definitions => "definitions"
  | calls => "calls"

/-- Why a facet is missing. -/
inductive FacetError where
  /-- The language has no notion of the facet. -/
  | unsupported
  /-- The reading broke off. -/
  | failed (reason : String)
deriving DecidableEq, Repr

/-- What is said of a missing facet. -/
def FacetError.message : FacetError → String
  | unsupported => "not supported for this language"
  | failed reason => "extraction failed: " ++ reason

/-- One reading: from the root of a syntax tree and the source below it. -/
abbrev Reading (α : Type) := Syntax.Node → Bytes → Except FacetError (List α)

/-- A reading that a language does not support. -/
def Reading.unsupported {α : Type} : Reading α := fun _ _ => .error .unsupported

/-- A reading that cannot fail. -/
def Reading.total {α : Type} (f : Syntax.Node → Bytes → List α) : Reading α :=
  fun root source => .ok (f root source)

/-- The rules of a language, one reading per facet. -/
structure Extractor where
  /-- What the file imports. -/
  imports : Reading Import := .unsupported
  /-- What the file exports. -/
  exports : Reading Export := .unsupported
  /-- What the file defines. -/
  definitions : Reading Definition := .unsupported
  /-- What the file calls. -/
  calls : Reading Call := .unsupported

/-- A file's symbols and the facets that are missing. -/
structure Extracted where
  /-- The symbols found. -/
  parsed : ParsedFile
  /-- The facets left empty, with the reasons. -/
  diagnostics : List (Facet × FacetError)
deriving DecidableEq, Repr

namespace Extractor

/-- The items of a reading, none when it is missing. -/
def items {α : Type} : Except FacetError (List α) → List α
  | .ok xs => xs
  | .error _ => []

/-- The report on a reading: nothing when it succeeded. -/
def report {α : Type} (facet : Facet) : Except FacetError (List α) → List (Facet × FacetError)
  | .ok _ => []
  | .error e => [(facet, e)]

/-- Read a file under all four facets. -/
def run (e : Extractor) (language : Language) (path : String) (tree : Syntax.Tree)
    (source : Bytes) : Extracted :=
  let root := Syntax.Node.ofTree tree
  let imports := e.imports root source
  let exports := e.exports root source
  let definitions := e.definitions root source
  let calls := e.calls root source
  { parsed :=
      { path
        language := language.name
        imports := items imports
        exports := items exports
        definitions := items definitions
        calls := items calls }
    diagnostics :=
      report .imports imports ++ report .exports exports ++
        report .definitions definitions ++ report .calls calls }

end Extractor

end ChangeImpact
