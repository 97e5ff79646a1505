import ChangeImpact.Graph.Build
import ChangeImpact.Records

/-!
# How far a change reaches

A change of some exports of a component reaches, in one step, the components
with an edge into it that own a file importing a changed name from it. Imports
that bind everything are reached by any change of content.
-/

namespace ChangeImpact

/-- The last export of a name. -/
def lastExport? (f : ParsedFile) (name : String) : Option Export :=
  f.exports.reverse.find? (·.name = name)

/-- Whether a name is exported before and after with one kind and signature. -/
def sameExport (before after : Option Export) : Bool :=
  match before, after with
  | some a, some b => a.kind = b.kind ∧ a.signature = b.signature
  | _, _ => false

/-- The names whose export is added, removed or changed by a draft, ascending. Without a
committed state every export of the draft is new. -/
def changedExports (committed : Option ParsedFile) (draft : ParsedFile) : List String :=
  match committed with
  | none => draft.exportNames
  | some before =>
    (Ordered.union before.exportNames draft.exportNames).filter fun name =>
      !sameExport (lastExport? before name) (lastExport? draft name)

/-- A component that a change reaches. -/
structure AffectedComponent where
  /-- The component. -/
  component : String
  /-- The changed names that it uses, ascending. -/
  matchedSymbols : List String := []
  /-- The reached files with the lines that refer to those names. -/
  affectedLines : AffectedLines := []
deriving DecidableEq, Repr

/-- The reached files, ascending. -/
def AffectedComponent.files (a : AffectedComponent) : List String :=
  a.affectedLines.map (·.1)

/-- What one import takes from a change. -/
structure ImportMatch where
  /-- The changed names that it uses, ascending. -/
  symbols : List String
  /-- The names under which the file refers to them, ascending. -/
  localNames : List String
  /-- The line of the import. -/
  line : Nat
deriving DecidableEq, Repr

/-- The changed names that an import uses. One that binds everything uses them all, and
is reached by a change of content without any; another is reached only by a name. -/
def usedSymbols (i : Import) (target : ParsedFile) (changed : List String)
    (contentChanged : Bool) : Option (List String) :=
  if i.bindsEverything then
    if changed.isEmpty ∧ !contentChanged then none else some changed
  else
    let used := (Ordered.union i.symbols (confirmedSymbols i target)).filter changed.contains
    if used.isEmpty then none else some used

/-- What an import takes from a change. Default and whole-file imports are referred to
by the names they bind. -/
def matchImport (i : Import) (target : ParsedFile) (changed : List String)
    (contentChanged : Bool) : Option ImportMatch :=
  (usedSymbols i target changed contentChanged).map fun symbols =>
    { symbols
      localNames := if i.isDefault || i.isWildcard then Ordered.union i.symbols symbols else symbols
      line := i.line }

/-- Whether one of the parts of a callee between `.` and `:` is among the names. -/
def calleeRefers (callee : String) (names : List String) : Bool :=
  ((Text.splitBy (fun c => c = '.' ∨ c = ':') callee.toList).filter (!·.isEmpty)).any
    fun part => names.contains (String.ofList part)

/-- The matching imports of a file. -/
def matchesOf (index : ExportIndex) (component : String) (changed : List String)
    (contentChanged : Bool) (f : IndexedFile) : List ImportMatch :=
  f.parsed.imports.filterMap fun i =>
    if i.isRelative then
      match index.target? f.path i with
      | some target =>
        if target.component = some component then
          matchImport i target.parsed changed contentChanged
        else none
      | none => none
    else none

/-- The lines of a file that refer to a change: of its matching imports and of the calls
of what they bind, ascending. Unknown lines do not count. -/
def referringLines (found : List ImportMatch) (f : IndexedFile) : List Nat :=
  let names := Ordered.ofList (found.flatMap (·.localNames))
  let calls := (f.parsed.calls.filter fun c => calleeRefers c.callee names).map (·.line)
  (Ordered.ofList (found.map (·.line) ++ calls)).filter (0 < ·)

/-- The components with an edge into `component`, ascending, itself left out. -/
def candidateSources (component : String) (edges : List DependencyEdge) : List String :=
  Ordered.ofList (((edges.filter (·.target = component)).map (·.source)).filter (· ≠ component))

/-- The components that a change reaches together with one more file. -/
def reachFile (index : ExportIndex) (component : String) (changed : List String)
    (contentChanged : Bool) (candidates : List String)
    (reached : List (String × AffectedComponent)) (f : IndexedFile) :
    List (String × AffectedComponent) :=
  match f.component with
  | none => reached
  | some owner =>
    let found := matchesOf index component changed contentChanged f
    if !candidates.contains owner || found.isEmpty then reached
    else
      Ordered.alter owner
        (fun old =>
          let a := old.getD { component := owner }
          { a with
            matchedSymbols := Ordered.union (found.flatMap (·.symbols)) a.matchedSymbols
            affectedLines := Ordered.upsert f.path (referringLines found f) a.affectedLines })
        reached

/-- The components that a change reaches, ascending. -/
def affectedComponents (component : String) (changed : List String) (contentChanged : Bool)
    (edges : List DependencyEdge) (index : ExportIndex) : List AffectedComponent :=
  if changed.isEmpty ∧ !contentChanged then []
  else
    let candidates := candidateSources component edges
    (index.toList.foldl (reachFile index component changed contentChanged candidates) []).map (·.2)

/-- The contributors of each reached component, each once, ascending by component and
user: one impact each. -/
def impactedContributors (affected : List AffectedComponent)
    (contributors : String → List String) : List (AffectedComponent × String) :=
  affected.flatMap fun a => (Ordered.ofList (contributors a.component)).map fun u => (a, u)

/-- The impact of a change request on one contributor of a reached component. -/
def impactOn (change : String) (now : Instant) (a : AffectedComponent)
    (contributor id : String) : Impact :=
  { id, change, component := a.component, contributor, affectedLines := a.affectedLines,
    createdAt := now }

end ChangeImpact
