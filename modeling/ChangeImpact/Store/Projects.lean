import ChangeImpact.Store.Tables

/-!
# Stored projects, components and contributors

Identifiers are unique, and so are component names in a project and users in a
component. A row can only refer to rows that are there.
-/

namespace ChangeImpact.Store

/-- Whether there is a project of that identifier. -/
def hasProject (s : Store) (id : String) : Bool := s.projects.any (·.id = id)

/-- Whether there is a component of that identifier. -/
def hasComponent (s : Store) (id : String) : Bool := s.components.any (·.id = id)

/-- Add a project. -/
def insertProject (p : Project) (s : Store) : Except Failure Store := do
  demand (!s.hasProject p.id) (.duplicateKey "projects" ["id"])
  .ok { s with projects := s.projects ++ [p] }

/-- The project of an identifier. -/
def project? (s : Store) (id : String) : Except Failure (Option Project) :=
  s.readFirst [.strictness] (·.id) (s.projects.find? (·.id = id))

/-- Add a component. -/
def insertComponent (c : Component) (s : Store) : Except Failure Store := do
  demand (!s.hasComponent c.id) (.duplicateKey "components" ["id"])
  demand (!s.components.any fun d => d.project = c.project ∧ d.name = c.name)
    (.duplicateKey "components" ["project_id", "name"])
  demand (s.hasProject c.project) .foreignKey
  .ok { s with components := s.components ++ [c] }

/-- The component of an identifier. -/
def component? (s : Store) (id : String) : Except Failure (Option Component) :=
  s.readFirst [.componentStatus] (·.id) (s.components.find? (·.id = id))

/-- The components of a project by name. -/
def componentsOf (s : Store) (project : String) : Except Failure (List Component) :=
  s.readRows [.componentStatus] (·.id)
    (Ordered.sortBy (fun a b => decide (a.name ≤ b.name))
      (s.components.filter (·.project = project)))

/-- Give some components a status. Identifiers without a component do not count. -/
def setComponentStatus (ids : List String) (status : ComponentStatus) (s : Store) : Store :=
  { s with
    components := updateWhere (fun c => ids.contains c.id) (fun c => { c with status })
      s.components }.mend .componentStatus fun row => ids.contains row

/-- Add a contributor or change the role of one. -/
def addContributor (c : Contributor) (s : Store) : Except Failure Store :=
  if s.contributors.any fun d => d.component = c.component ∧ d.user = c.user then
    .ok { s with
      contributors := updateWhere (fun d => d.component = c.component ∧ d.user = c.user)
        (fun d => { d with role := c.role }) s.contributors }
  else do
    demand (s.hasComponent c.component) .foreignKey
    .ok { s with contributors := s.contributors ++ [c] }

/-- The contributors of a component by user. -/
def contributorsOf (s : Store) (component : String) : List Contributor :=
  Ordered.sortBy (fun a b => decide (a.user ≤ b.user))
    (s.contributors.filter (·.component = component))

end ChangeImpact.Store
