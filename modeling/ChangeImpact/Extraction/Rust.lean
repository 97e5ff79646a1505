import ChangeImpact.Extraction.Facet

/-!
# Rust

A `use` declaration is a tree of paths. It is flattened into its leaves, each a
path prefix with a name below it or with the whole prefix, and the leaves are
grouped into one import per prefix.
-/

namespace ChangeImpact.Rust

open Syntax

/-- One thing that a `use` tree brings into scope. -/
structure UseLeaf where
  /-- The path in front. -/
  stem : String
  /-- The name below it; none for the whole path. -/
  name : Option String
deriving DecidableEq, Repr

/-- A path with one more part. -/
def joinPath (stem part : String) : String :=
  if stem = "" then part else stem ++ "::" ++ part

/-- The leaf of a plain word. On its own it names a whole crate; inside a list `self`
stands for the path in front. -/
def wordLeaf (stem word : String) : UseLeaf :=
  if stem = "" then ⟨word, none⟩
  else if word = "self" then ⟨stem, none⟩
  else ⟨stem, some word⟩

/-- The leaves of a `use` tree below `stem`, in source order. Aliases do not count. -/
def flattenUse (source : Bytes) (stem : String) (t : Tree) : List UseLeaf :=
  if t.kind = "scoped_identifier" then
    match t.fieldText "name" source with
    | some name => [⟨joinPath stem (t.fieldTextD "path" source), some name⟩]
    | none => []
  else if t.kind = "use_as_clause" then
    match h : t.field? "path" with
    | some path =>
      have := Tree.size_lt_of_field? h
      flattenUse source stem path
    | none => []
  else if t.kind = "use_wildcard" then
    match t.namedChildren.head? with
    | some path => [⟨joinPath stem (path.text source), none⟩]
    | none => [⟨stem, none⟩]
  else if t.kind = "scoped_use_list" then
    let nested :=
      match t.fieldText "path" source with
      | some path => joinPath stem path
      | none => stem
    match h : t.field? "list" with
    | some list =>
      have := Tree.size_lt_of_field? h
      flattenUse source nested list
    | none => []
  else if t.kind = "use_list" then
    t.namedChildren.attach.flatMap fun ⟨child, h⟩ =>
      have := Tree.size_lt_of_mem_namedChildren h
      flattenUse source stem child
  else if t.kind = "identifier" ∨ t.kind = "self" ∨ t.kind = "crate" ∨ t.kind = "super" then
    [wordLeaf stem (t.text source)]
  else []
termination_by t.size

/-- Add a leaf to an import of its prefix. -/
def addLeaf (leaf : UseLeaf) (i : Import) : Import :=
  match leaf.name with
  | some name => i.bind name
  | none => i.wildcard

/-- Add a leaf to the imports of a declaration, as a new one if its prefix is new. -/
def groupLeaf (line : Nat) (imports : List Import) (leaf : UseLeaf) : List Import :=
  if imports.any (·.source = leaf.stem) then
    imports.map fun i => if i.source = leaf.stem then addLeaf leaf i else i
  else imports ++ [addLeaf leaf { source := leaf.stem, line }]

/-- The imports of a `use` declaration. -/
def importsOfUse (t : Tree) (source : Bytes) : List Import :=
  match t.field? "argument" with
  | none => []
  | some argument => (flattenUse source "" argument).foldl (groupLeaf (t.line source)) []

/-- The imports of a file. -/
def imports (root : Node) (source : Bytes) : List Import :=
  (root.walk ["use_declaration"]).flatMap fun n => importsOfUse n.tree source

/-- The signature of a function: name, parameters and return type. -/
def signature (t : Tree) (name : String) (source : Bytes) : String :=
  let params := t.fieldTextD "parameters" source
  match t.fieldText "return_type" source with
  | some ret => "fn " ++ name ++ params ++ " -> " ++ ret
  | none => "fn " ++ name ++ params

/-- The type or trait to whose body a function belongs. -/
def ownerType (n : Node) (source : Bytes) : Option String := do
  let body ← n.parent?
  if body.kind ≠ "declaration_list" then none
  else
    let owner ← body.enclosing ["impl_item", "trait_item", "mod_item"]
    if owner.kind = "impl_item" then
      let raw ← owner.tree.fieldText "type" source
      some (Text.trim (String.ofList (Text.beforeFirst ['<'] raw.toList)))
    else if owner.kind = "trait_item" then owner.tree.fieldText "name" source
    else none

/-- Kinds of items that can be exported. -/
def itemKinds : List String :=
  ["function_item", "struct_item", "enum_item", "union_item", "trait_item", "type_item",
   "const_item", "static_item"]

/-- The kind and signature of a named item. -/
def itemShape (n : Node) (name : String) (source : Bytes) : SymbolKind × String :=
  if n.kind = "function_item" then
    (if (ownerType n source).isSome then .method else .function, signature n.tree name source)
  else if n.kind = "struct_item" ∨ n.kind = "enum_item" ∨ n.kind = "union_item" then
    (.classType, name)
  else if n.kind = "trait_item" then (.interface, name)
  else if n.kind = "type_item" then (.type, name)
  else (.variable, name)

/-- The exports of a file: its items with a visibility. -/
def exports (root : Node) (source : Bytes) : List Export :=
  (root.walk itemKinds).filterMap fun n =>
    if (n.tree.findChild "visibility_modifier").isNone then none
    else (n.tree.fieldText "name" source).map fun name =>
      let (kind, signature) := itemShape n name source
      { name, kind, signature, line := n.tree.line source }

/-- The definitions of a file. -/
def definitions (root : Node) (source : Bytes) : List Definition :=
  (root.walk ["function_item", "struct_item", "enum_item", "trait_item"]).filterMap fun n =>
    (n.tree.fieldText "name" source).map fun name =>
      let (kind, signature) := itemShape n name source
      { name, kind, signature
        startLine := n.tree.line source
        endLine := n.tree.endLine source
        parent := if n.kind = "function_item" then ownerType n source else none }

/-- What a call expression calls, type arguments aside. -/
def calleeOf (t : Tree) (source : Bytes) : Option String := do
  let outer ← t.field? "function"
  let function ← if outer.kind = "generic_function" then outer.field? "function" else some outer
  if function.kind = "identifier" ∨ function.kind = "scoped_identifier" then
    some (function.text source)
  else if function.kind = "field_expression" then
    let value ← function.fieldText "value" source
    let field ← function.fieldText "field" source
    some (value ++ "." ++ field)
  else none

/-- The calls of a file. -/
def calls (root : Node) (source : Bytes) : List Call :=
  (root.walk ["call_expression"]).filterMap fun n =>
    (calleeOf n.tree source).map fun callee =>
      { callee
        line := n.tree.line source
        caller := n.enclosingName ["function_item"] source }

/-- The rules for Rust. -/
def extractor : Extractor where
  imports := .total imports
  exports := .total exports
  definitions := .total definitions
  calls := .total calls

end ChangeImpact.Rust
