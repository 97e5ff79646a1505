import ChangeImpact.Store.Projects

/-!
# Stored dependencies

A project has at most one edge between two components for each way of finding
it. What the parser finds is replaced as a whole; edges that were found in
another way stay.
-/

namespace ChangeImpact.Store

/-- Whether an edge of a project has given ends and was found in a given way. -/
def connects (project : String) (e : DependencyEdge) (row : StoredEdge) : Bool :=
  row.project = project && row.edge.source = e.source && row.edge.target = e.target &&
    row.edge.method = e.method

/-- The key of edges. -/
def edgeKey : Failure :=
  .duplicateKey "component_dependencies"
    ["project_id", "source_component_id", "target_component_id", "detection_method"]

/-- Add an edge to a project. -/
def insertEdge (project : String) (e : DependencyEdge) (s : Store) : Except Failure Store := do
  demand (e.source ≠ e.target) (.condition "source_component_id <> target_component_id")
  demand (!s.edges.any (connects project e)) edgeKey
  demand (s.hasProject project && s.hasComponent e.source && s.hasComponent e.target) .foreignKey
  .ok { s with edges := s.edges ++ [⟨project, e⟩] }

/-- Add an import that leads out of a project. -/
def insertExternal (project : String) (d : ExternalDependency) (s : Store) :
    Except Failure Store := do
  demand (s.hasProject project) .foreignKey
  .ok { s with external := s.external ++ [⟨project, d⟩] }

/-- The store without what the parser found in a project. -/
def clearGraph (project : String) (s : Store) : Store :=
  { s with
    edges := s.edges.filter fun e => !(e.project = project && e.edge.method = .parser)
    external := s.external.filter (·.project ≠ project) }

/-- Replace what the parser found in a project. -/
def replaceGraph (project : String) (g : DependencyGraph) (s : Store) :
    Except Failure Store := do
  let s ← g.edges.foldlM (fun s e => s.insertEdge project { e with method := .parser })
    (s.clearGraph project)
  g.external.foldlM (fun s d => s.insertExternal project d) s

/-- Add an edge, or add its symbols to the edge that is there and take over its
confidence. -/
def upsertEdge (project : String) (e : DependencyEdge) (s : Store) : Except Failure Store := do
  demand (e.source ≠ e.target) (.index ("self edge on component " ++ e.source))
  if s.edges.any (connects project e) then
    let merged (row : StoredEdge) : StoredEdge :=
      { row with
        edge := { row.edge with
          symbols := Ordered.union e.symbols row.edge.symbols
          confidence := e.confidence } }
    .ok { s with edges := updateWhere (connects project e) merged s.edges }
  else s.insertEdge project e

/-- Edges in the order of their ends and of the way they were found. -/
def byEnds (rows : List StoredEdge) : List DependencyEdge :=
  let key (e : DependencyEdge) : List String := [e.source, e.target, wordOf e.method]
  Ordered.sortBy (fun a b => !decide (key b < key a)) (rows.map (·.edge))

/-- The edges of a project. -/
def edgesOf (s : Store) (project : String) : List DependencyEdge :=
  byEnds (s.edges.filter (·.project = project))

/-- The edges of a project that lead to a component. -/
def edgesInto (s : Store) (project component : String) : List DependencyEdge :=
  byEnds (s.edges.filter fun e => e.project = project && e.edge.target = component)

/-- The imports that lead out of a project, by file and line. -/
def externalOf (s : Store) (project : String) : List ExternalDependency :=
  Ordered.sortBy
    (fun a b => decide (a.filePath < b.filePath) ||
      (a.filePath = b.filePath && decide (a.line ≤ b.line)))
    ((s.external.filter (·.project = project)).map (·.dependency))

end ChangeImpact.Store
