import ChangeImpact.Extraction.Facet

/-!
# Java

An import names a class of a package or, with an asterisk, the whole package.
What carries the modifier `public` is exported.
-/

namespace ChangeImpact.Java

open Syntax

/-- Kinds of nodes that declare types. -/
def typeKinds : List String :=
  ["class_declaration", "interface_declaration", "enum_declaration", "record_declaration"]

/-- The kind of symbol that a type declaration makes. -/
def typeKind (kind : String) : SymbolKind :=
  if kind = "interface_declaration" then .interface
  else if kind = "enum_declaration" then .type
  else .classType

/-- The signature of a method: return type, name and parameters. -/
def signature (t : Tree) (name : String) (source : Bytes) : String :=
  let params := t.fieldTextD "parameters" source
  match t.fieldText "type" source with
  | some ret => ret ++ " " ++ name ++ params
  | none => name ++ params

/-- The import of a declaration. -/
def importOf (t : Tree) (source : Bytes) : Option Import := do
  let name ← (t.findChild "scoped_identifier").or (t.findChild "identifier")
  let path := name.text source
  let line := t.line source
  if (t.findChild "asterisk").isSome then some (Import.whole path line)
  else
    match Text.splitLast? "." path with
    | some (package, name) => some ({ source := package, line : Import }.bind name)
    | none => some ({ source := path, line : Import }.bind path)

/-- The imports of a file. -/
def imports (root : Node) (source : Bytes) : List Import :=
  (root.walk ["import_declaration"]).filterMap fun n => importOf n.tree source

/-- Whether a declaration is public. -/
def isPublic (t : Tree) (source : Bytes) : Bool :=
  match t.findChild "modifiers" with
  | some m => (Text.words (m.text source)).contains "public"
  | none => false

/-- The exports of a file. -/
def exports (root : Node) (source : Bytes) : List Export :=
  (root.walk (typeKinds ++ ["method_declaration"])).filterMap fun n =>
    if !isPublic n.tree source then none
    else (n.tree.fieldText "name" source).map fun name =>
      let isMethod := n.kind = "method_declaration"
      { name
        kind := if isMethod then .method else typeKind n.kind
        signature := if isMethod then signature n.tree name source else name
        line := n.tree.line source }

/-- The definitions of a file. -/
def definitions (root : Node) (source : Bytes) : List Definition :=
  let kinds := typeKinds ++ ["method_declaration", "constructor_declaration"]
  (root.walk kinds).filterMap fun n =>
    (n.tree.fieldText "name" source).map fun name =>
      let isType := typeKinds.contains n.kind
      { name
        kind := if isType then typeKind n.kind else .method
        signature := if isType then name else signature n.tree name source
        startLine := n.tree.line source
        endLine := n.tree.endLine source
        parent := n.enclosingName typeKinds source }

/-- What a method invocation calls. -/
def calleeOf (t : Tree) (source : Bytes) : Option String :=
  (t.fieldText "name" source).map fun name =>
    match t.fieldText "object" source with
    | some object => object ++ "." ++ name
    | none => name

/-- The calls of a file. -/
def calls (root : Node) (source : Bytes) : List Call :=
  (root.walk ["method_invocation"]).filterMap fun n =>
    (calleeOf n.tree source).map fun callee =>
      { callee
        line := n.tree.line source
        caller := n.enclosingName ["method_declaration", "constructor_declaration"] source }

/-- The rules for Java. -/
def extractor : Extractor where
  imports := .total imports
  exports := .total exports
  definitions := .total definitions
  calls := .total calls

end ChangeImpact.Java
