import ChangeImpact.Extraction.Facet

/-!
# Python

Modules are imported by dotted names, which become paths; leading dots climb
from the importing file. A file exports its module-level functions and classes:
those listed in `__all__`, or else those without a leading underscore.
-/

namespace ChangeImpact.Python

open Syntax

/-- The signature of a function: name, parameters and return annotation. -/
def signature (t : Tree) (name : String) (source : Bytes) : String :=
  let params := t.fieldTextD "parameters" source
  match t.fieldText "return_type" source with
  | some ret => name ++ params ++ " -> " ++ ret
  | none => name ++ params

/-- A dotted name as a path. -/
def modulePath (dotted : String) : String :=
  Text.replaceChar '.' '/' dotted

/-- The imported name of one entry, whatever it is bound to. -/
def importedName (entry : Tree) (source : Bytes) : Option String :=
  if entry.kind = "aliased_import" then entry.fieldText "name" source
  else some (entry.text source)

/-- The path up to the directory that `dots` leading dots name. -/
def climb (dots : Nat) : String :=
  if dots ≤ 1 then "./" else String.join (List.replicate (dots - 1) "../")

/-- The imports of a plain import statement, one per module. -/
def plainImports (t : Tree) (source : Bytes) : List Import :=
  (t.fields "name").filterMap fun entry =>
    (importedName entry source).map fun name =>
      Import.whole (modulePath name) (t.line source)

/-- The imports of a `from` statement: one of the named module, or one per name when
the module is given by dots alone. -/
def fromImports (t : Tree) (source : Bytes) : List Import :=
  match t.field? "module_name" with
  | none => []
  | some module =>
    let line := t.line source
    let names := (t.fields "name").filterMap (importedName · source)
    let isWildcard := (t.findChild "wildcard_import").isSome
    let single (target : String) : List Import :=
      [{ ({ source := target, line : Import }.bindAll names) with isWildcard }]
    if module.kind = "relative_import" then
      let dots := ((module.findChild "import_prefix").map fun p =>
        (Utf8.encode (Text.trim (p.text source))).length).getD 1
      match module.findChild "dotted_name" with
      | some path => single (climb dots ++ modulePath (path.text source))
      | none =>
        names.map fun name =>
          ({ source := climb dots ++ name, line : Import }.bind name).wildcard
    else single (modulePath (module.text source))

/-- The imports of a file. -/
def imports (root : Node) (source : Bytes) : List Import :=
  (root.walk ["import_statement", "import_from_statement"]).flatMap fun n =>
    if n.kind = "import_statement" then plainImports n.tree source
    else fromImports n.tree source

/-- The functions and classes of the module itself, looking through decorators. -/
def topLevel (root : Tree) : List Tree :=
  root.namedChildren.filterMap fun child =>
    if child.kind = "function_definition" ∨ child.kind = "class_definition" then some child
    else if child.kind = "decorated_definition" then child.field? "definition"
    else none

/-- The assignment to `__all__` in a statement. -/
def listingAssignment (source : Bytes) (statement : Tree) : Option Tree :=
  if statement.kind ≠ "expression_statement" then none
  else (statement.findChild "assignment").filter fun a =>
    a.fieldText "left" source = some "__all__"

/-- The strings that the module's first assignment to `__all__` lists, if it has one. -/
def listedNames (root : Tree) (source : Bytes) : Option (List String) := do
  let assignment ← root.namedChildren.findSome? (listingAssignment source)
  let right ← assignment.field? "right"
  some ((right.namedChildren.filter (·.kind = "string")).map fun s =>
    Text.unquote (s.text source))

/-- Whether a module-level name is exported. -/
def isExported (listed : Option (List String)) (name : String) : Bool :=
  match listed with
  | some names => names.contains name
  | none => !Text.startsWith name "_"

/-- The exports of a file. -/
def exports (root : Node) (source : Bytes) : List Export :=
  let listed := listedNames root.tree source
  (topLevel root.tree).filterMap fun t => do
    let name ← t.fieldText "name" source
    if !isExported listed name then none
    else if t.kind = "class_definition" then
      some { name, kind := .classType, signature := name, line := t.line source }
    else
      some { name, kind := .function, signature := signature t name source, line := t.line source }

/-- The class in whose body a function stands directly, decorators aside. -/
def owningClass (n : Node) (source : Bytes) : Option String := do
  let parent ← n.parent?
  let parent ← if parent.kind = "decorated_definition" then parent.parent? else some parent
  if parent.kind ≠ "block" then none
  else
    let owner ← parent.parent?
    if owner.kind ≠ "class_definition" then none else owner.tree.fieldText "name" source

/-- The definitions of a file. -/
def definitions (root : Node) (source : Bytes) : List Definition :=
  (root.walk ["function_definition", "class_definition"]).filterMap fun n =>
    (n.tree.fieldText "name" source).map fun name =>
      let owner := owningClass n source
      let isClass := n.kind = "class_definition"
      { name
        kind := if isClass then .classType else if owner.isSome then .method else .function
        signature := if isClass then name else signature n.tree name source
        startLine := n.tree.line source
        endLine := n.tree.endLine source
        parent := owner }

/-- The calls of a file: of a name or an attribute. -/
def calls (root : Node) (source : Bytes) : List Call :=
  (root.walk ["call"]).filterMap fun n => do
    let function ← n.tree.field? "function"
    if function.kind = "identifier" ∨ function.kind = "attribute" then
      some
        { callee := function.text source
          line := n.tree.line source
          caller := n.enclosingName ["function_definition"] source }
    else none

/-- The rules for Python. -/
def extractor : Extractor where
  imports := .total imports
  exports := .total exports
  definitions := .total definitions
  calls := .total calls

end ChangeImpact.Python
