import ChangeImpact.Graph.Edge
import ChangeImpact.Graph.Index

/-!
# The dependency graph of a project

A relative import that means a file of another component makes an edge between
the components, when it binds everything or a name that the file exports. Any
other import, one that is not relative or means no file, leads out of the project.
-/

namespace ChangeImpact

/-- The names that an import is known to use from a file: those it binds and the file
exports and, for a default import, the file's default exports. -/
def confirmedSymbols (i : Import) (target : ParsedFile) : List String :=
  let defaults := (target.exports.filter (·.kind = .default)).map (·.name)
  Ordered.union (if i.isDefault then defaults else [])
    (Ordered.ofList (i.symbols.filter fun s => target.exports.any (·.name = s)))

/-- The symbols on the edge of an import: none when it binds everything; no edge when
nothing that it names is exported. -/
def edgeSymbols (i : Import) (target : ParsedFile) : Option (List String) :=
  if i.bindsEverything then some []
  else
    let confirmed := confirmedSymbols i target
    if confirmed.isEmpty then none else some confirmed

/-- The edge that an import of a file makes. -/
def edgeOf (index : ExportIndex) (f : IndexedFile) (i : Import) : Option DependencyEdge := do
  let source ← f.component
  let file ← if i.isRelative then index.target? f.path i else none
  let target ← file.component
  if target = source then none
  else (edgeSymbols i file.parsed).map fun symbols => { source, target, symbols }

/-- The dependency that an import makes when it leads out of the project. -/
def externalOf (index : ExportIndex) (f : IndexedFile) (i : Import) :
    Option ExternalDependency :=
  if f.component.isSome ∧ (index.resolve f.path i.source).isNone then
    some { filePath := f.path, source := i.source, line := i.line }
  else none

/-- The graph before merging: files in path order, imports in source order. -/
def resolveEdges (index : ExportIndex) : DependencyGraph where
  edges := index.toList.flatMap fun f => f.parsed.imports.filterMap (edgeOf index f)
  external := index.toList.flatMap fun f => f.parsed.imports.filterMap (externalOf index f)

/-- The dependency graph of a project's files. -/
def DependencyGraph.build (files : List IndexedFile) : DependencyGraph :=
  let found := resolveEdges (ExportIndex.build files)
  { edges := DependencyEdge.merge found.edges, external := found.external }

end ChangeImpact
