import ChangeImpact.Extraction.Facet

/-!
# Go

An import binds a package as a whole under its last path segment or an alias. A
name is exported when it starts with an upper-case letter.
-/

namespace ChangeImpact.Go

open Syntax

/-- The signature of a function: name, parameters and result. -/
def signature (t : Tree) (name : String) (source : Bytes) : String :=
  let params := t.fieldTextD "parameters" source
  match t.fieldText "result" source with
  | some result => name ++ params ++ " " ++ result
  | none => name ++ params

/-- The names that an import specification binds. Dot and blank imports bind none. -/
def boundNames (spec : Tree) (path : String) (source : Bytes) : List String :=
  match spec.field? "name" with
  | some name => if name.kind = "package_identifier" then [name.text source] else []
  | none => ((Text.pieces '/' path).getLast?.filter (· ≠ "")).toList

/-- The imports of a file. -/
def imports (root : Node) (source : Bytes) : List Import :=
  (root.walk ["import_spec"]).filterMap fun n =>
    (n.tree.fieldText "path" source).map fun raw =>
      let path := Text.unquote raw
      (Import.whole path (n.tree.line source)).bindAll (boundNames n.tree path source)

/-- Whether a name is visible outside its package. -/
def isExported (name : String) : Bool :=
  (name.toList.head?.map Text.isUppercase).getD false

/-- The kind of a declared type, by what it is declared to be. -/
def typeKind (spec : Tree) : SymbolKind :=
  match (spec.field? "type").map (·.kind) with
  | some "struct_type" => .classType
  | some "interface_type" => .interface
  | _ => .type

/-- The kind and signature under which a declared name is exported. -/
def exportShape (t : Tree) (name : String) (source : Bytes) : SymbolKind × String :=
  if t.kind = "function_declaration" then (.function, signature t name source)
  else if t.kind = "method_declaration" then (.method, signature t name source)
  else if t.kind = "type_spec" ∨ t.kind = "type_alias" then (typeKind t, name)
  else (.variable, name)

/-- The exports of a file. -/
def exports (root : Node) (source : Bytes) : List Export :=
  let kinds := ["function_declaration", "method_declaration", "type_spec", "type_alias",
    "const_spec", "var_spec"]
  (root.walk kinds).flatMap fun n =>
    let names := (n.tree.fields "name").map (·.text source)
    (names.filter isExported).map fun name =>
      let (kind, signature) := exportShape n.tree name source
      { name, kind, signature, line := n.tree.line source }

/-- The type of a method's receiver, without pointer and type parameters. -/
def receiverType (t : Tree) (source : Bytes) : Option String := do
  let receiver ← t.field? "receiver"
  let declaration ← receiver.namedChildren.find? (·.kind = "parameter_declaration")
  let raw ← declaration.fieldText "type" source
  let base := Text.trimStartBy (· == '*') raw
  some (Text.trim (String.ofList (Text.beforeFirst ['['] base.toList)))

/-- The definitions of a file. -/
def definitions (root : Node) (source : Bytes) : List Definition :=
  (root.walk ["function_declaration", "method_declaration", "type_spec"]).filterMap fun n =>
    (n.tree.fieldText "name" source).map fun name =>
      let make (kind : SymbolKind) (signature : String) (parent : Option String) : Definition :=
        { name, kind, signature, parent
          startLine := n.tree.line source
          endLine := n.tree.endLine source }
      if n.kind = "function_declaration" then
        make .function (signature n.tree name source) none
      else if n.kind = "method_declaration" then
        make .method (signature n.tree name source) (receiverType n.tree source)
      else make (typeKind n.tree) name none

/-- What a call expression calls, when it is a name or a selector. -/
def calleeOf (t : Tree) (source : Bytes) : Option String := do
  let function ← t.field? "function"
  if function.kind = "identifier" then some (function.text source)
  else if function.kind = "selector_expression" then
    let operand ← function.fieldText "operand" source
    let field ← function.fieldText "field" source
    some (operand ++ "." ++ field)
  else none

/-- The calls of a file. -/
def calls (root : Node) (source : Bytes) : List Call :=
  (root.walk ["call_expression"]).filterMap fun n =>
    (calleeOf n.tree source).map fun callee =>
      { callee
        line := n.tree.line source
        caller := n.enclosingName ["function_declaration", "method_declaration"] source }

/-- The rules for Go. -/
def extractor : Extractor where
  imports := .total imports
  exports := .total exports
  definitions := .total definitions
  calls := .total calls

end ChangeImpact.Go
