import ChangeImpact.Extraction.Facet

/-!
# Ruby

Calls of the `require` family and mixins stand for imports. Classes, modules and
the methods that no bare `private` or `protected` in front hides are exported.
-/

namespace ChangeImpact.Ruby

open Syntax

/-- Methods that load a file. -/
def requireMethods : List String := ["require", "require_relative", "load", "autoload"]

/-- Methods that mix in a module. -/
def mixinMethods : List String := ["include", "extend", "prepend"]

/-- Kinds of nodes that are classes or modules. -/
def scopeKinds : List String := ["class", "module"]

/-- Kinds of nodes that are methods. -/
def methodKinds : List String := ["method", "singleton_method"]

/-- The import of a file that is loaded. A relative one starts next to the loading file. -/
def importOfRequire (method : String) (arguments : Tree) (line : Nat) (source : Bytes) :
    Option Import :=
  (arguments.firstOfKind ["string_content"]).map fun content =>
    let target := content.text source
    let relative := method = "require_relative" ∧ ¬ Text.startsWith target "."
    Import.whole (if relative then "./" ++ target else target) line

/-- The imports of a mixin, one per constant. -/
def importsOfMixin (arguments : Tree) (line : Nat) (source : Bytes) : List Import :=
  (arguments.namedChildren.filter fun a =>
    a.kind = "constant" ∨ a.kind = "scope_resolution").map fun a =>
      let name := a.text source
      { source := name, line : Import }.bind name

/-- The imports of a call that has no receiver. -/
def importsOfCall (t : Tree) (source : Bytes) : List Import :=
  if (t.field? "receiver").isSome then []
  else match t.fieldText "method" source, t.field? "arguments" with
    | some method, some arguments =>
      let line := t.line source
      if requireMethods.contains method then
        (importOfRequire method arguments line source).toList
      else if mixinMethods.contains method then importsOfMixin arguments line source
      else []
    | _, _ => []

/-- The imports of a file. -/
def imports (root : Node) (source : Bytes) : List Import :=
  (root.walk ["call"]).flatMap fun n => importsOfCall n.tree source

/-- What the siblings in front of a method, the nearest first, say about its visibility. -/
def hiddenAfter (source : Bytes) : List Tree → Bool
  | [] => false
  | t :: ts =>
    if t.kind = "identifier" then
      let word := t.text source
      if word = "private" ∨ word = "protected" then true
      else if word = "public" then false
      else hiddenAfter source ts
    else hiddenAfter source ts

/-- Whether a bare `private` or `protected` in front hides a method. -/
def isHidden (n : Node) (source : Bytes) : Bool :=
  hiddenAfter source n.earlierNamed

/-- The kind of symbol that a method makes: a function outside all classes and modules. -/
def methodKind (n : Node) : SymbolKind :=
  if n.kind = "singleton_method" ∨ (n.enclosing scopeKinds).isSome then .method else .function

/-- The signature of a method: receiver, name and parameters. -/
def signature (t : Tree) (name : String) (source : Bytes) : String :=
  let params := t.fieldTextD "parameters" source
  match t.fieldText "object" source with
  | some object => "def " ++ object ++ "." ++ name ++ params
  | none => "def " ++ name ++ params

/-- The exports of a file. -/
def exports (root : Node) (source : Bytes) : List Export :=
  (root.walk (scopeKinds ++ methodKinds)).filterMap fun n => do
    let name ← n.tree.fieldText "name" source
    let line := n.tree.line source
    if methodKinds.contains n.kind then
      if isHidden n source then none
      else some { name, kind := methodKind n, signature := signature n.tree name source, line }
    else some { name, kind := .classType, signature := name, line }

/-- The definitions of a file. -/
def definitions (root : Node) (source : Bytes) : List Definition :=
  (root.walk (scopeKinds ++ methodKinds)).filterMap fun n =>
    (n.tree.fieldText "name" source).map fun name =>
      let isMethod := methodKinds.contains n.kind
      { name
        kind := if isMethod then methodKind n else .classType
        signature := if isMethod then signature n.tree name source else name
        startLine := n.tree.line source
        endLine := n.tree.endLine source
        parent := if isMethod then n.enclosingName scopeKinds source else none }

/-- What a call calls; bare loads and mixins are imports and no calls. -/
def calleeOf (t : Tree) (source : Bytes) : Option String := do
  let method ← t.fieldText "method" source
  match t.fieldText "receiver" source with
  | some receiver => some (receiver ++ "." ++ method)
  | none =>
    if requireMethods.contains method ∨ mixinMethods.contains method then none else some method

/-- The calls of a file. -/
def calls (root : Node) (source : Bytes) : List Call :=
  (root.walk ["call"]).filterMap fun n =>
    (calleeOf n.tree source).map fun callee =>
      { callee
        line := n.tree.line source
        caller := n.enclosingName methodKinds source }

/-- The rules for Ruby. -/
def extractor : Extractor where
  imports := .total imports
  exports := .total exports
  definitions := .total definitions
  calls := .total calls

end ChangeImpact.Ruby
