import ChangeImpact.Extraction.Facet

/-!
# C#

A using directive opens a whole namespace or, with an alias, names one type of
it. What carries the modifier `public` is exported, constructors excepted.
-/

namespace ChangeImpact.CSharp

open Syntax

/-- Kinds of nodes that declare types. -/
def typeKinds : List String :=
  ["class_declaration", "struct_declaration", "interface_declaration", "record_declaration",
   "enum_declaration"]

/-- The kind of symbol that a type declaration makes. -/
def typeKind (kind : String) : SymbolKind :=
  if kind = "interface_declaration" then .interface
  else if kind = "enum_declaration" then .type
  else .classType

/-- The signature of a method: return type, name and parameters. -/
def signature (t : Tree) (name : String) (source : Bytes) : String :=
  let params := t.fieldTextD "parameters" source
  match (t.fieldText "returns" source).or (t.fieldText "type" source) with
  | some ret => ret ++ " " ++ name ++ params
  | none => name ++ params

/-- The words of a using directive that say what is used. -/
def usingBody (raw : String) : String :=
  let ws := Text.words (Text.trimEndBy (· == ';') (Text.trim raw))
  " ".intercalate (ws.filter fun w => w ≠ "global" ∧ w ≠ "using" ∧ w ≠ "static")

/-- The import of a using directive. -/
def importOf (t : Tree) (source : Bytes) : Option Import :=
  let body := usingBody (t.text source)
  let line := t.line source
  match Text.splitFirst '=' body.toList with
  | some (_, after) =>
    let target := Text.trim (String.ofList after)
    match Text.splitLast? "." target with
    | some (space, name) => some ({ source := space, line : Import }.bind name)
    | none => some ({ source := target, line : Import }.bind target)
  | none => if body = "" then none else some (Import.whole body line)

/-- The imports of a file. -/
def imports (root : Node) (source : Bytes) : List Import :=
  (root.walk ["using_directive"]).filterMap fun n => importOf n.tree source

/-- Whether a declaration is public. -/
def isPublic (t : Tree) (source : Bytes) : Bool :=
  t.children.any fun c => c.kind = "modifier" ∧ c.text source = "public"

/-- The exports of a file. -/
def exports (root : Node) (source : Bytes) : List Export :=
  let kinds := typeKinds ++
    ["method_declaration", "constructor_declaration", "property_declaration"]
  (root.walk kinds).filterMap fun n =>
    if n.kind = "constructor_declaration" ∨ !isPublic n.tree source then none
    else (n.tree.fieldText "name" source).map fun name =>
      let line := n.tree.line source
      if n.kind = "method_declaration" then
        { name, kind := .method, signature := signature n.tree name source, line }
      else if n.kind = "property_declaration" then
        { name, kind := .variable, signature := name, line }
      else { name, kind := typeKind n.kind, signature := name, line }

/-- The definitions of a file. -/
def definitions (root : Node) (source : Bytes) : List Definition :=
  let kinds := typeKinds ++ ["method_declaration", "constructor_declaration"]
  (root.walk kinds).filterMap fun n =>
    (n.tree.fieldText "name" source).map fun name =>
      let isType := typeKinds.contains n.kind
      { name
        kind := if isType then typeKind n.kind else .method
        signature := if isType then name else signature n.tree name source
        startLine := n.tree.line source
        endLine := n.tree.endLine source
        parent := if isType then none else n.enclosingName typeKinds source }

/-- The calls of a file. -/
def calls (root : Node) (source : Bytes) : List Call :=
  let scopes := ["method_declaration", "constructor_declaration", "local_function_statement"]
  (root.walk ["invocation_expression"]).filterMap fun n =>
    ((n.tree.field? "function").or n.tree.namedChildren.head?).map fun function =>
      { callee := function.text source
        line := n.tree.line source
        caller := n.enclosingName scopes source }

/-- The rules for C#. -/
def extractor : Extractor where
  imports := .total imports
  exports := .total exports
  definitions := .total definitions
  calls := .total calls

end ChangeImpact.CSharp
