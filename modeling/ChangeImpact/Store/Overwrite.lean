import ChangeImpact.Json.Reader
import ChangeImpact.Store.Decisions
import ChangeImpact.Store.Graph
import ChangeImpact.Symbols.Snapshot

/-!
# Writing raw text

Someone with access to the tables can write any text into a column. A text that
the column can be read from becomes its value; any other text damages the cell
until the column is written again.
-/

namespace ChangeImpact.Store

/-- The affected lines that a text spells; of lines given twice for a file the last count. -/
def affectedLinesOfText? (text : String) : Option AffectedLines := do
  let members ← (← Json.readText text.toList).object?
  members.foldlM (fun lines (path, v) => do
    some (Ordered.upsert path (← Json.list? Json.line? v) lines)) []

/-- The symbols that a text spells. -/
def symbolsOfText? (text : String) : Option ParsedFile :=
  (Json.readText text.toList).bind ParsedFile.ofJson?

/-- Write a text into a column that has to be read. -/
def overwriteCell {α β : Type} (s : Store) (column : Column) (id : String) (text : String)
    (decode : String → Option β) (rows : List α) (key : α → String) (set : β → α → α)
    (put : List α → Store → Store) : Nat × Store :=
  if rows.any (key · = id) then
    let s := s.mend column (· = id)
    match decode text with
    | some value => (1, put (updateWhere (key · = id) (set value) rows) s)
    | none => (1, { s with damaged := s.damaged ++ [⟨column, id⟩] })
  else (0, s)

/-- Write a text into a project's column. -/
def overwriteProject (s : Store) (column id text : String) : Except Failure (Nat × Store) :=
  let write {β : Type} (c : Column) (decode : String → Option β) (set : β → Project → Project) :=
    s.overwriteCell c id text decode s.projects (·.id) set fun projects s => { s with projects }
  match column with
  | "strictness_mode" =>
    .ok (write .strictness (Wording.ofText? Strictness) fun strictness p => { p with strictness })
  | _ => .error .unreadable

/-- Write a text into a component's column. -/
def overwriteComponent (s : Store) (column id text : String) : Except Failure (Nat × Store) :=
  let write {β : Type} (c : Column) (decode : String → Option β)
      (set : β → Component → Component) :=
    s.overwriteCell c id text decode s.components (·.id) set fun components s =>
      { s with components }
  match column with
  | "status" =>
    .ok (write .componentStatus (Wording.ofText? ComponentStatus) fun status c => { c with status })
  | _ => .error .unreadable

/-- Write a text into a file's column. -/
def overwriteFile (s : Store) (column id text : String) : Except Failure (Nat × Store) :=
  let write {β : Type} (c : Column) (decode : String → Option β)
      (set : β → ProjectFile → ProjectFile) :=
    s.overwriteCell c id text decode s.files (·.id) set fun files s => { s with files }
  match column with
  | "parsed_symbols" =>
    .ok (write .symbols symbolsOfText? fun symbols f => { f with symbols := some symbols })
  | _ => .error .unreadable

/-- Write a text into a request's column. -/
def overwriteRequest (s : Store) (column id text : String) : Except Failure (Nat × Store) :=
  let write {β : Type} (c : Column) (decode : String → Option β)
      (set : β → ChangeRequest → ChangeRequest) :=
    s.overwriteCell c id text decode s.requests (·.id) set fun requests s => { s with requests }
  match column with
  | "status" =>
    .ok (write .changeStatus (Wording.ofText? ChangeStatus) fun status r => { r with status })
  | _ => .error .unreadable

/-- Write a text into an impact's column. -/
def overwriteImpact (s : Store) (column id text : String) : Except Failure (Nat × Store) :=
  let write {β : Type} (c : Column) (decode : String → Option β) (set : β → Impact → Impact) :=
    s.overwriteCell c id text decode s.impacts (·.id) set fun impacts s => { s with impacts }
  match column with
  | "detection_method" =>
    .ok (write .detectionMethod (Wording.ofText? DetectionMethod) fun method i =>
      { i with method })
  | "affected_lines" =>
    .ok (write .affectedLines affectedLinesOfText? fun affectedLines i => { i with affectedLines })
  | "llm_annotation" =>
    .ok (write .comment Json.parse fun comment i => { i with comment := some comment })
  | _ => .error .unreadable

/-- Write a text into a column of a row. Answers with the number of rows that changed; a
column that is not known is refused. -/
def overwrite (table column id text : String) (s : Store) : Except Failure (Nat × Store) :=
  match table with
  | "projects" => s.overwriteProject column id text
  | "components" => s.overwriteComponent column id text
  | "project_files" => s.overwriteFile column id text
  | "change_requests" => s.overwriteRequest column id text
  | "change_impacts" => s.overwriteImpact column id text
  | _ => .error .unreadable

end ChangeImpact.Store
