import ChangeImpact.Symbols.Basic
import ChangeImpact.Json.Decode

/-!
# Symbol snapshots

The symbols of a file are stored and exchanged as JSON. `ParsedFile.toJson`
writes every field. `ParsedFile.ofJson?` also reads older snapshots: fields that
have a default may be missing, and names that repeat are kept once.
-/

namespace ChangeImpact

open Json

/-- An import as JSON. -/
def Import.toJson (i : Import) : Json :=
  .object [("source", .string i.source), ("symbols", .strings i.symbols),
    ("is_default", .bool i.isDefault), ("is_wildcard", .bool i.isWildcard), ("line", .nat i.line)]

/-- An export as JSON. -/
def Export.toJson (e : Export) : Json :=
  .object [("name", .string e.name), ("kind", .string (wordOf e.kind)),
    ("signature", .string e.signature), ("line", .nat e.line)]

/-- A definition as JSON. -/
def Definition.toJson (d : Definition) : Json :=
  .object [("name", .string d.name), ("kind", .string (wordOf d.kind)),
    ("signature", .string d.signature), ("start_line", .nat d.startLine),
    ("end_line", .nat d.endLine), ("parent", .ofOption .string d.parent)]

/-- A call as JSON. -/
def Call.toJson (c : Call) : Json :=
  .object [("callee", .string c.callee), ("line", .nat c.line),
    ("parent_def", .ofOption .string c.caller)]

/-- The symbols of a file as JSON. -/
def ParsedFile.toJson (f : ParsedFile) : Json :=
  .object [("path", .string f.path), ("language", .string f.language),
    ("imports", .array (f.imports.map (·.toJson))),
    ("exports", .array (f.exports.map (·.toJson))),
    ("definitions", .array (f.definitions.map (·.toJson))),
    ("calls", .array (f.calls.map (·.toJson)))]

/-- The import that a JSON value gives. -/
def Import.ofJson? (v : Json) : Option Import :=
  match fieldsOf ["source", "symbols", "is_default", "is_wildcard", "line"] v with
  | some [source, symbols, isDefault, isWildcard, line] => do
    let source ← required string? source
    let symbols ← withDefault [] (list? string?) symbols
    let isDefault ← withDefault false bool? isDefault
    let isWildcard ← withDefault false bool? isWildcard
    let line ← withDefault 0 line? line
    some { source, symbols := Ordered.distinct symbols, isDefault, isWildcard, line }
  | _ => none

/-- The export that a JSON value gives. -/
def Export.ofJson? (v : Json) : Option Export :=
  match fieldsOf ["name", "kind", "signature", "line"] v with
  | some [name, kind, signature, line] => do
    let name ← required string? name
    let kind ← required (choice? SymbolKind) kind
    let signature ← withDefault "" string? signature
    let line ← withDefault 0 line? line
    some { name, kind, signature, line }
  | _ => none

/-- The definition that a JSON value gives. -/
def Definition.ofJson? (v : Json) : Option Definition :=
  match fieldsOf ["name", "kind", "signature", "start_line", "end_line", "parent"] v with
  | some [name, kind, signature, startLine, endLine, parent] => do
    let name ← required string? name
    let kind ← required (choice? SymbolKind) kind
    let signature ← withDefault "" string? signature
    let startLine ← withDefault 0 line? startLine
    let endLine ← withDefault 0 line? endLine
    let parent ← withDefault none (nullable string?) parent
    some { name, kind, signature, startLine, endLine, parent }
  | _ => none

/-- The call that a JSON value gives. -/
def Call.ofJson? (v : Json) : Option Call :=
  match fieldsOf ["callee", "line", "parent_def"] v with
  | some [callee, line, caller] => do
    let callee ← required string? callee
    let line ← withDefault 0 line? line
    let caller ← withDefault none (nullable string?) caller
    some { callee, line, caller }
  | _ => none

/-- The symbols of a file that a JSON value gives. -/
def ParsedFile.ofJson? (v : Json) : Option ParsedFile :=
  match fieldsOf ["path", "language", "imports", "exports", "definitions", "calls"] v with
  | some [path, language, imports, exports, definitions, calls] => do
    let path ← required string? path
    let language ← required string? language
    let imports ← withDefault [] (list? Import.ofJson?) imports
    let exports ← withDefault [] (list? Export.ofJson?) exports
    let definitions ← withDefault [] (list? Definition.ofJson?) definitions
    let calls ← withDefault [] (list? Call.ofJson?) calls
    some { path, language, imports, exports, definitions, calls }
  | _ => none

end ChangeImpact
