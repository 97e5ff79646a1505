import ChangeImpact.Extraction.Facet

/-!
# C and C++

The two grammars share the structure of declarators; C++ adds classes and
qualified names. An include depends on the whole header, and a quoted one is
looked up next to the including file. Records and functions at file scope are
exported, static functions excepted.
-/

namespace ChangeImpact.C

open Syntax

/-- Kinds of nodes that declare records. -/
def recordKinds : List String := ["class_specifier", "struct_specifier"]

/-- Kinds of nodes whose direct items are at file scope. -/
def fileScopes : List String := ["translation_unit", "linkage_specification"]

/-- Where an include looks: quoted names without a directory of their own start next to
the including file. -/
def includeTarget (path : Tree) (source : Bytes) : String :=
  let raw := Text.unquote (path.text source)
  if path.kind = "string_literal" ∧ ¬ Text.startsWith raw "." ∧ ¬ Text.startsWith raw "/" then
    "./" ++ raw
  else raw

/-- The imports of a file. -/
def imports (root : Node) (source : Bytes) : List Import :=
  (root.walk ["preproc_include"]).filterMap fun n =>
    (n.tree.field? "path").map fun path =>
      Import.whole (includeTarget path source) (n.tree.line source)

/-- Whether an item is at file scope, looking through namespaces, linkage blocks and
templates. -/
def atFileScope (n : Node) : Bool :=
  match n.parent? with
  | none => false
  | some parent =>
    if parent.kind = "declaration_list" then
      match parent.parent? with
      | some outer =>
        outer.kind = "linkage_specification" ∨ outer.kind = "namespace_definition"
      | none => false
    else if parent.kind = "template_declaration" then
      match parent.parent? with
      | some outer => fileScopes.contains outer.kind
      | none => false
    else fileScopes.contains parent.kind

/-- Whether a declaration has static storage. -/
def isStatic (t : Tree) (source : Bytes) : Bool :=
  t.children.any fun c => c.kind = "storage_class_specifier" ∧ c.text source = "static"

/-- The function declarator at or below a declarator, through pointers, references and
parentheses. -/
def functionDeclaratorAt (t : Tree) : Option Tree :=
  if t.kind = "function_declarator" then some t
  else if t.kind = "pointer_declarator" ∨ t.kind = "reference_declarator" ∨
      t.kind = "parenthesized_declarator" then
    match h : t.field? "declarator" with
    | some inner =>
      have := Tree.size_lt_of_field? h
      functionDeclaratorAt inner
    | none =>
      match h : t.namedChildren.getLast? with
      | some inner =>
        have := Tree.size_lt_of_mem_namedChildren (List.mem_of_getLast? h)
        functionDeclaratorAt inner
      | none => none
  else none
termination_by t.size

/-- The function declarator of a declaration. -/
def functionDeclarator (t : Tree) : Option Tree :=
  (t.field? "declarator").bind functionDeclaratorAt

/-- The name that a function declarator declares, qualifications included. -/
def declaratorName (declarator : Tree) (source : Bytes) : Option String := do
  let inner ← declarator.field? "declarator"
  let kinds := ["identifier", "field_identifier", "qualified_identifier", "destructor_name",
    "operator_name"]
  if kinds.contains inner.kind then some (inner.text source) else none

/-- The name of a record that has a body. -/
def recordName (t : Tree) (source : Bytes) : Option String :=
  if (t.field? "body").isNone then none else t.fieldText "name" source

/-- The export of an item. -/
def exportOf (n : Node) (source : Bytes) : Option Export :=
  if !atFileScope n then none
  else if recordKinds.contains n.kind then
    (recordName n.tree source).map fun name =>
      { name, kind := .classType, signature := name, line := n.tree.line source }
  else if isStatic n.tree source then none
  else do
    let declarator ← functionDeclarator n.tree
    let name ← declaratorName declarator source
    some
      { name
        kind := .function
        signature := declarator.text source
        line := n.tree.line source }

/-- The exports of a file. -/
def exports (root : Node) (source : Bytes) : List Export :=
  let kinds := ["function_definition", "declaration", "class_specifier", "struct_specifier"]
  (root.walk kinds).filterMap (exportOf · source)

/-- The owner and the own name of a function. A qualified name names its owner; otherwise
it is the enclosing record, if there is one. -/
def ownerAndName (n : Node) (qualified : String) (source : Bytes) : Option String × String :=
  match Text.splitLast? "::" qualified with
  | some (owner, name) => (some owner, name)
  | none => ((n.enclosing recordKinds).bind (·.tree.fieldText "name" source), qualified)

/-- The definition at a node. -/
def definitionOf (n : Node) (source : Bytes) : Option Definition :=
  if recordKinds.contains n.kind then
    (recordName n.tree source).map fun name =>
      { name, kind := .classType, signature := name
        startLine := n.tree.line source
        endLine := n.tree.endLine source }
  else do
    let declarator ← functionDeclarator n.tree
    let qualified ← declaratorName declarator source
    let (parent, name) := ownerAndName n qualified source
    some
      { name, parent
        kind := if parent.isSome then .method else .function
        signature := declarator.text source
        startLine := n.tree.line source
        endLine := n.tree.endLine source }

/-- The definitions of a file. -/
def definitions (root : Node) (source : Bytes) : List Definition :=
  (root.walk ["function_definition", "class_specifier", "struct_specifier"]).filterMap
    (definitionOf · source)

/-- The own name of the function around a node. -/
def callerOf (n : Node) (source : Bytes) : Option String := do
  let function ← n.enclosing ["function_definition"]
  let declarator ← functionDeclarator function.tree
  let qualified ← declaratorName declarator source
  some (((Text.splitLast? "::" qualified).map (·.2)).getD qualified)

/-- The calls of a file. -/
def calls (root : Node) (source : Bytes) : List Call :=
  (root.walk ["call_expression"]).filterMap fun n =>
    (n.tree.field? "function").map fun function =>
      { callee := function.text source
        line := n.tree.line source
        caller := callerOf n source }

/-- The rules for C and C++. -/
def extractor : Extractor where
  imports := .total imports
  exports := .total exports
  definitions := .total definitions
  calls := .total calls

end ChangeImpact.C
