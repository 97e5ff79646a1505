import ChangeImpact.Extraction.Facet

/-!
# TypeScript, TSX and JavaScript

The three grammars share the kinds of nodes used here; plain JavaScript lacks
the declarations of types. Imports are import statements, exports with a source,
and calls of `require` on a string.
-/

namespace ChangeImpact.TypeScript

open Syntax

/-- Kinds of nodes that are functions. -/
def functionKinds : List String :=
  ["function_declaration", "generator_function_declaration", "method_definition",
   "function_expression", "arrow_function"]

/-- Kinds of nodes that are classes. -/
def classKinds : List String :=
  ["class_declaration", "abstract_class_declaration", "class"]

/-- Kinds of nodes that declare types other than classes. -/
def typeKinds : List String :=
  ["interface_declaration", "type_alias_declaration", "enum_declaration"]

/-- The name of a function: its own, or that of the variable an anonymous one initialises. -/
def functionName (n : Node) (source : Bytes) : Option String :=
  match n.tree.fieldText "name" source with
  | some name => some name
  | none =>
    if n.kind = "arrow_function" ∨ n.kind = "function_expression" then do
      let parent ← n.parent?
      if parent.kind = "variable_declarator" then
        let name ← parent.tree.field? "name"
        if name.kind = "identifier" then some (name.text source) else none
      else none
    else none

/-- The signature of a function: name, parameters and return type as written. -/
def functionSignature (t : Tree) (name : String) (source : Bytes) : String :=
  let params := ((t.fieldText "parameters" source).or (t.fieldText "parameter" source)).getD ""
  name ++ params ++ t.fieldTextD "return_type" source

/-- The name of the nearest enclosing function that has one. -/
def enclosingFunction (n : Node) (source : Bytes) : Option String :=
  (n.ancestors.filter fun a => functionKinds.contains a.kind).findSome? (functionName · source)

/-- What one part of an import clause adds to an import. -/
def bindClausePart (source : Bytes) (i : Import) (part : Tree) : Import :=
  if part.kind = "identifier" then { i with isDefault := true }.bind (part.text source)
  else if part.kind = "namespace_import" then
    match part.findChild "identifier" with
    | some name => i.wildcard.bind (name.text source)
    | none => i.wildcard
  else if part.kind = "named_imports" then
    let specs := part.namedChildren.filter (·.kind = "import_specifier")
    i.bindAll (specs.filterMap fun spec => (spec.fieldText "name" source).map Text.unquote)
  else i

/-- The import of an import statement. Without a clause it is made for its effect and
depends on the whole source. -/
def importOfStatement (t : Tree) (source : Bytes) : Option Import :=
  match t.findChild "import_require_clause" with
  | some require =>
    (require.fieldText "source" source).map fun target =>
      Import.whole (Text.unquote target) (t.line source)
  | none => do
    let target ← t.fieldText "source" source
    let i : Import := { source := Text.unquote target, line := t.line source }
    match t.findChild "import_clause" with
    | none => some i.wildcard
    | some clause => some (clause.namedChildren.foldl (bindClausePart source) i)

/-- The import of an export statement with a source. -/
def importOfExport (t : Tree) (source : Bytes) : Option Import := do
  let target ← t.fieldText "source" source
  let i : Import := { source := Text.unquote target, line := t.line source }
  match t.findChild "export_clause" with
  | some clause => some (i.bindAll (clause.namedChildren.filterMap (·.fieldText "name" source)))
  | none => some i.wildcard

/-- The name that one property of an object pattern takes from the object. -/
def patternName (prop : Tree) (source : Bytes) : Option String :=
  if prop.kind = "shorthand_property_identifier_pattern" then some (prop.text source)
  else if prop.kind = "pair_pattern" then prop.fieldText "key" source
  else none

/-- The import of a call of `require` on a string. Destructuring its result names what
is used; otherwise the whole source is. -/
def importOfCall (n : Node) (source : Bytes) : Option Import := do
  let function ← n.tree.field? "function"
  if function.kind ≠ "identifier" ∨ function.text source ≠ "require" then none
  else
    let arguments ← n.tree.field? "arguments"
    let first ← arguments.namedChildren.head?
    if first.kind ≠ "string" then none
    else
      let i : Import :=
        { source := Text.unquote (first.text source), line := n.tree.line source }
      let pattern := do
        let parent ← n.parent?
        if parent.kind = "variable_declarator" then
          let name ← parent.tree.field? "name"
          if name.kind = "object_pattern" then some name else none
        else none
      match pattern with
      | some p => some (i.bindAll (p.namedChildren.filterMap (patternName · source)))
      | none => some i.wildcard

/-- The imports of a file. -/
def imports (root : Node) (source : Bytes) : List Import :=
  (root.walk ["import_statement", "export_statement", "call_expression"]).filterMap fun n =>
    if n.kind = "import_statement" then importOfStatement n.tree source
    else if n.kind = "export_statement" then importOfExport n.tree source
    else importOfCall n source

/-- The default export of an export statement. An anonymous value is named `default`. -/
def defaultExport (t : Tree) (source : Bytes) : Export :=
  let target := (t.field? "declaration").or (t.field? "value")
  let name := (target.bind fun v =>
    if v.kind = "identifier" then some (v.text source) else v.fieldText "name" source).getD
      "default"
  let signature :=
    match target with
    | some v => if functionKinds.contains v.kind then functionSignature v name source else name
    | none => name
  { name, kind := .default, signature, line := t.line source }

/-- The export of one declared variable; patterns export nothing. -/
def variableExport (line : Nat) (source : Bytes) (declarator : Tree) : Option Export := do
  let name ← declarator.field? "name"
  if name.kind ≠ "identifier" then none
  else
    some
      { name := name.text source
        kind := .variable
        signature := Text.firstLine (declarator.text source)
        line }

/-- The exports of an exported declaration. -/
def declarationExports (d : Tree) (line : Nat) (source : Bytes) : List Export :=
  let named (kind : SymbolKind) (signature : String → String) : List Export :=
    ((d.fieldText "name" source).map fun name =>
      { name, kind, signature := signature name, line : Export }).toList
  if d.kind = "function_declaration" ∨ d.kind = "generator_function_declaration" then
    named .function (functionSignature d · source)
  else if d.kind = "class_declaration" ∨ d.kind = "abstract_class_declaration" then
    named .classType id
  else if d.kind = "interface_declaration" then named .interface id
  else if d.kind = "type_alias_declaration" ∨ d.kind = "enum_declaration" then named .type id
  else if d.kind = "lexical_declaration" ∨ d.kind = "variable_declaration" then
    (d.namedChildren.filter (·.kind = "variable_declarator")).filterMap
      (variableExport line source)
  else []

/-- The export of one specifier of an export clause, under its alias if it has one. -/
def specifierExport (line : Nat) (source : Bytes) (spec : Tree) : Option Export :=
  ((spec.fieldText "alias" source).or (spec.fieldText "name" source)).map fun name =>
    { name, kind := .variable, signature := name, line }

/-- The exports of an export statement. -/
def exportsOf (t : Tree) (source : Bytes) : List Export :=
  if t.children.any (·.kind = "default") then [defaultExport t source]
  else match t.field? "declaration" with
    | some d => declarationExports d (t.line source) source
    | none =>
      if (t.field? "source").isSome then []
      else match t.findChild "export_clause" with
        | some clause => clause.namedChildren.filterMap (specifierExport (t.line source) source)
        | none => []

/-- The exports of a file. -/
def exports (root : Node) (source : Bytes) : List Export :=
  (root.walk ["export_statement"]).flatMap fun n => exportsOf n.tree source

/-- The definition at a node that has a name. -/
def definitionOf (n : Node) (source : Bytes) : Option Definition :=
  (functionName n source).map fun name =>
    let make (kind : SymbolKind) (signature : String) (parent : Option String) : Definition :=
      { name, kind, signature, parent
        startLine := n.tree.line source
        endLine := n.tree.endLine source }
    if n.kind = "method_definition" then
      make .method (functionSignature n.tree name source)
        ((n.enclosing classKinds).bind (·.tree.fieldText "name" source))
    else if classKinds.contains n.kind then make .classType name none
    else if n.kind = "interface_declaration" then make .interface name none
    else if n.kind = "type_alias_declaration" ∨ n.kind = "enum_declaration" then
      make .type name none
    else make .function (functionSignature n.tree name source) none

/-- Of several definitions of one name that start on one line, the first. -/
def firstPerLine (seen : List (String × Nat)) : List Definition → List Definition
  | [] => []
  | d :: ds =>
    if (d.name, d.startLine) ∈ seen then firstPerLine seen ds
    else d :: firstPerLine ((d.name, d.startLine) :: seen) ds

/-- The definitions of a file. -/
def definitions (root : Node) (source : Bytes) : List Definition :=
  firstPerLine []
    ((root.walk (functionKinds ++ classKinds ++ typeKinds)).filterMap (definitionOf · source))

/-- What a call expression calls, when it is a name or a member of something. -/
def calleeOf (t : Tree) (source : Bytes) : Option String := do
  let function ← t.field? "function"
  if function.kind = "identifier" then some (function.text source)
  else if function.kind = "member_expression" then
    let object ← function.fieldText "object" source
    let property ← function.fieldText "property" source
    some (object ++ "." ++ property)
  else none

/-- The calls of a file. -/
def calls (root : Node) (source : Bytes) : List Call :=
  (root.walk ["call_expression"]).filterMap fun n =>
    (calleeOf n.tree source).map fun callee =>
      { callee, line := n.tree.line source, caller := enclosingFunction n source }

/-- The rules for TypeScript, TSX and JavaScript. -/
def extractor : Extractor where
  imports := .total imports
  exports := .total exports
  definitions := .total definitions
  calls := .total calls

end ChangeImpact.TypeScript
