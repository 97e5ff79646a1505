import ChangeImpact.Words

/-!
# Dependency edges

An edge says that one component imports from another. Edges merge by their
ends: one edge per ordered pair, with the union of the symbols.
-/

namespace ChangeImpact

/-- The two components of an edge. -/
structure Ends where
  /-- The component that imports. -/
  source : String
  /-- The component that is imported from. -/
  target : String
deriving DecidableEq, Repr

/-- By source, then by target. -/
instance : LT Ends :=
  ⟨fun a b => a.source < b.source ∨ (a.source = b.source ∧ a.target < b.target)⟩

instance (a b : Ends) : Decidable (a < b) :=
  inferInstanceAs
    (Decidable (a.source < b.source ∨ (a.source = b.source ∧ a.target < b.target)))

/-- A dependency of one component on another. -/
structure DependencyEdge where
  /-- The component that imports. -/
  source : String
  /-- The component that is imported from. -/
  target : String
  /-- The kind of dependency. -/
  dependencyType : String := "import"
  /-- How certain it is, 1 for what the parser sees. -/
  confidence : Float := 1.0
  /-- Where it was found. -/
  method : DetectionMethod := .parser
  /-- The names that are known to be used, ascending. -/
  symbols : List String := []
deriving DecidableEq

/-- An import that leads out of the project. -/
structure ExternalDependency where
  /-- The importing file. -/
  filePath : String
  /-- What it imports. -/
  source : String
  /-- The line of the import. -/
  line : Nat
deriving DecidableEq, Repr

/-- What the parser sees of a project. -/
structure DependencyGraph where
  /-- The edges between components. -/
  edges : List DependencyEdge
  /-- The imports that lead out. -/
  external : List ExternalDependency
deriving DecidableEq

namespace DependencyEdge

/-- The ends of an edge. -/
def ends (e : DependencyEdge) : Ends := ⟨e.source, e.target⟩

/-- Add an edge's symbols to those of its ends. -/
def collect (merged : List (Ends × List String)) (e : DependencyEdge) :
    List (Ends × List String) :=
  Ordered.alter e.ends (fun symbols => Ordered.union e.symbols (symbols.getD [])) merged

/-- One parser edge per pair of ends, ascending, with the symbols of all of them. -/
def merge (edges : List DependencyEdge) : List DependencyEdge :=
  (edges.foldl collect []).map fun (ends, symbols) =>
    { source := ends.source, target := ends.target, symbols }

end DependencyEdge

end ChangeImpact
