import ChangeImpact.Diff.Hunk
import ChangeImpact.Graph.Edge
import ChangeImpact.Records
import ChangeImpact.Symbols.Snapshot

/-!
# Records as JSON

The written form of the records, for whoever asks for them. Points in time are
written in universal time, choices by their word, and what is missing as `null`.
-/

namespace ChangeImpact

open Json

/-- A choice by its word. -/
def wordJson {α : Type} [Wording α] (a : α) : Json := .string (wordOf a)

/-- A point in time. -/
def Instant.toJson (t : Instant) : Json := .string t.render

/-- An edge. -/
def DependencyEdge.toJson (e : DependencyEdge) : Json :=
  .object [("source_component_id", .string e.source), ("target_component_id", .string e.target),
    ("dependency_type", .string e.dependencyType), ("confidence", .number (.float e.confidence)),
    ("detection_method", wordJson e.method), ("symbols", .strings e.symbols)]

/-- An import that leads out. -/
def ExternalDependency.toJson (e : ExternalDependency) : Json :=
  .object [("file_path", .string e.filePath), ("source", .string e.source), ("line", .nat e.line)]

/-- The word of a kind of line. -/
def Diff.HunkKind.word : Diff.HunkKind → String
  | .context => "context"
  | .add => "add"
  | .remove => "remove"

/-- A hunk. -/
def Diff.Hunk.toJson (h : Diff.Hunk) : Json :=
  .object [("start_line", .nat h.startLine), ("end_line", .nat h.endLine),
    ("type", .string h.kind.word), ("content", .string h.content)]

/-- The difference of two texts. -/
def Diff.DiffResult.toJson (d : Diff.DiffResult) : Json :=
  .object [("hunks", .array (d.hunks.map (·.toJson))),
    ("changed_lines", .array (d.changedLines.map .nat)), ("additions", .nat d.additions),
    ("deletions", .nat d.deletions)]

/-- Lines by file. -/
def affectedLinesJson (lines : AffectedLines) : Json :=
  .object (lines.map fun (path, ns) => (path, .array (ns.map .nat)))

/-- A project. -/
def Project.toJson (p : Project) : Json :=
  .object [("id", .string p.id), ("name", .string p.name), ("owner", .string p.owner),
    ("strictness", wordJson p.strictness)]

/-- A component. -/
def Component.toJson (c : Component) : Json :=
  .object [("id", .string c.id), ("project", .string c.project), ("name", .string c.name),
    ("status", wordJson c.status)]

/-- A contributor: component, user and role. -/
def Contributor.toJson (c : Contributor) : Json :=
  .array [.string c.component, .string c.user, wordJson c.role]

/-- What a file is, without its symbols. -/
def ProjectFile.members (f : ProjectFile) : List (String × Json) :=
  [("id", .string f.id), ("project", .string f.project),
    ("component", ofOption .string f.component), ("path", .string f.path),
    ("language", ofOption .string f.language), ("size", .int f.size),
    ("storage_key", .string f.storageKey), ("hash", ofOption .string f.hash)]

/-- A file with its symbols. -/
def ProjectFile.toJson (f : ProjectFile) : Json :=
  .object (f.members ++ [("parsed", ofOption ParsedFile.toJson f.symbols),
    ("indexed", .bool f.symbols.isSome)])

/-- A file with the names that it exports. -/
def ProjectFile.toSummary (f : ProjectFile) : Json :=
  .object (f.members ++
    [("exports", ofOption (fun s => .strings (s.exports.map (·.name))) f.symbols)])

/-- A draft. -/
def Draft.toJson (d : Draft) : Json :=
  .object [("id", .string d.id), ("file", .string d.file), ("author", .string d.author),
    ("content", .string d.content), ("active", .bool d.active), ("created_at", d.createdAt.toJson)]

/-- A change request. -/
def ChangeRequest.toJson (r : ChangeRequest) : Json :=
  .object [("id", .string r.id), ("project", .string r.project), ("component", .string r.component),
    ("author", .string r.author), ("title", .string r.title),
    ("description", .string r.description), ("status", wordJson r.status),
    ("created_at", r.createdAt.toJson), ("updated_at", r.updatedAt.toJson),
    ("resolved_at", ofOption Instant.toJson r.resolvedAt)]

/-- An impact. -/
def Impact.toJson (i : Impact) : Json :=
  .object [("id", .string i.id), ("change", .string i.change), ("component", .string i.component),
    ("contributor", .string i.contributor), ("method", wordJson i.method),
    ("confidence", .number (.float i.confidence)),
    ("affected_lines", affectedLinesJson i.affectedLines),
    ("acknowledged", .bool i.acknowledged), ("dismissed", .bool i.dismissed),
    ("auto_confirmed", .bool i.autoConfirmed),
    ("acknowledged_at", ofOption Instant.toJson i.acknowledgedAt),
    ("llm_annotation", i.comment.getD .null), ("created_at", i.createdAt.toJson)]

/-- A snapshot. -/
def Snapshot.toJson (s : Snapshot) : Json :=
  .object [("id", .string s.id), ("project", .string s.project),
    ("change", ofOption .string s.change), ("created_at", s.createdAt.toJson)]

/-- A file of a snapshot: identifier, path, key and digest. -/
def SnapshotFile.toJson (f : SnapshotFile) : Json :=
  .array [.string f.file, .string f.path, .string f.storageKey, ofOption .string f.hash]

end ChangeImpact
