import ChangeImpact.Extraction.Facet

/-!
# PHP

Includes depend on a whole file, and `__DIR__` in front makes it relative to the
including one; a use clause names one symbol of a namespace. Types, outermost
functions and public methods are exported; methods are public by default.
-/

namespace ChangeImpact.Php

open Syntax

/-- Kinds of nodes that include a file. -/
def includeKinds : List String :=
  ["include_expression", "include_once_expression", "require_expression",
   "require_once_expression"]

/-- Kinds of nodes that declare types. -/
def typeKinds : List String :=
  ["class_declaration", "interface_declaration", "trait_declaration", "enum_declaration"]

/-- Kinds of nodes that declare functions. -/
def functionKinds : List String := ["function_definition", "method_declaration"]

/-- The kind of symbol that a type declaration makes. -/
def typeKind (kind : String) : SymbolKind :=
  if kind = "interface_declaration" then .interface
  else if kind = "enum_declaration" then .type
  else .classType

/-- The signature of a function: name, parameters and return type. -/
def signature (t : Tree) (name : String) (source : Bytes) : String :=
  let params := t.fieldTextD "parameters" source
  match t.fieldText "return_type" source with
  | some ret => name ++ params ++ ": " ++ ret
  | none => name ++ params

/-- The import of a use clause, its alias aside. -/
def importOfUse (t : Tree) (source : Bytes) : Import :=
  let raw := t.text source
  let named := String.ofList (Text.beforeFirst " as ".toList raw.toList)
  let path := Text.trimStartBy (· == '\\') (Text.trim named)
  let line := t.line source
  match Text.splitLast? "\\" path with
  | some (space, name) => { source := space, line : Import }.bind name
  | none => { source := path, line : Import }.bind path

/-- The import of an include, when it has a literal. -/
def importOfInclude (t : Tree) (source : Bytes) : Option Import :=
  (t.firstOfKind ["string", "encapsed_string"]).map fun literal =>
    let target := Text.unquote (literal.text source)
    let here := Text.contains (t.text source) "__DIR__" && Text.startsWith target "/"
    Import.whole (if here then "." ++ target else target) (t.line source)

/-- The imports of a file. -/
def imports (root : Node) (source : Bytes) : List Import :=
  (root.walk (includeKinds ++ ["namespace_use_clause"])).filterMap fun n =>
    if n.kind = "namespace_use_clause" then some (importOfUse n.tree source)
    else importOfInclude n.tree source

/-- Whether a method is public: it has no visibility or that of `public`. -/
def isPublic (t : Tree) (source : Bytes) : Bool :=
  let visibility := (t.children.filter (·.kind = "visibility_modifier")).map fun c =>
    Text.asciiLower (c.text source)
  visibility.isEmpty || visibility.contains "public"

/-- The exports of a file. -/
def exports (root : Node) (source : Bytes) : List Export :=
  (root.walk (typeKinds ++ functionKinds)).filterMap fun n => do
    let name ← n.tree.fieldText "name" source
    let line := n.tree.line source
    if n.kind = "function_definition" then
      if (n.enclosing functionKinds).isSome then none
      else some { name, kind := .function, signature := signature n.tree name source, line }
    else if n.kind = "method_declaration" then
      if !isPublic n.tree source then none
      else some { name, kind := .method, signature := signature n.tree name source, line }
    else some { name, kind := typeKind n.kind, signature := name, line }

/-- The definitions of a file. -/
def definitions (root : Node) (source : Bytes) : List Definition :=
  (root.walk (typeKinds ++ functionKinds)).filterMap fun n =>
    (n.tree.fieldText "name" source).map fun name =>
      let make (kind : SymbolKind) (signature : String) (parent : Option String) : Definition :=
        { name, kind, signature, parent
          startLine := n.tree.line source
          endLine := n.tree.endLine source }
      if n.kind = "function_definition" then
        make .function (signature n.tree name source) none
      else if n.kind = "method_declaration" then
        make .method (signature n.tree name source) (n.enclosingName typeKinds source)
      else make (typeKind n.kind) name none

/-- Two fields of a call joined by a separator. -/
def joinedFields (t : Tree) (left separator : String) (source : Bytes) : Option String := do
  let owner ← t.fieldText left source
  let name ← t.fieldText "name" source
  some (owner ++ separator ++ name)

/-- What a call calls. -/
def calleeOf (t : Tree) (source : Bytes) : Option String :=
  if t.kind = "function_call_expression" then t.fieldText "function" source
  else if t.kind = "scoped_call_expression" then joinedFields t "scope" "::" source
  else joinedFields t "object" "." source

/-- The calls of a file. -/
def calls (root : Node) (source : Bytes) : List Call :=
  let kinds := ["function_call_expression", "member_call_expression",
    "nullsafe_member_call_expression", "scoped_call_expression"]
  (root.walk kinds).filterMap fun n =>
    (calleeOf n.tree source).map fun callee =>
      { callee
        line := n.tree.line source
        caller := n.enclosingName functionKinds source }

/-- The rules for PHP. -/
def extractor : Extractor where
  imports := .total imports
  exports := .total exports
  definitions := .total definitions
  calls := .total calls

end ChangeImpact.Php
