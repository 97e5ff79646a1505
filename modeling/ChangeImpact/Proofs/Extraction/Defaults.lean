import ChangeImpact.Proofs.Extraction.Scripts
import ChangeImpact.Proofs.Graph.Confirmed

/-!
# Default imports and default exports

A file exports its default under the name of what is exported, and an import takes it either as a
default import, in front of any braces, or under the name `default` between braces. A default import
is known to use it whatever its name is. Between braces it is known to be used only when it is
anonymous, because then its name is `default` too.
-/

namespace ChangeImpact

open Syntax

namespace TypeScript

variable {t v : Tree} {source : Bytes} {x : Export}

/-- A statement that exports a default. -/
structure ExportsDefault (t : Tree) : Prop where
  kind : t.kind = "export_statement"
  keyword : ∃ c ∈ t.children, c.kind = "default"

/-- What is exported is neither a variable nor anything with a name. -/
def Anonymous (t : Tree) : Prop :=
  ∀ v, (t.field? "declaration").or (t.field? "value") = some v →
    v.kind ≠ "identifier" ∧ v.field? "name" = none

theorem exportsOf_default (h : ExportsDefault t) :
    exportsOf t source = [defaultExport t source] := by
  obtain ⟨c, hc, hkind⟩ := h.keyword
  rw [exportsOf, if_pos (List.any_eq_true.mpr ⟨c, hc, decide_eq_true hkind⟩)]

theorem kind_defaultExport (t : Tree) (source : Bytes) : (defaultExport t source).kind = .default :=
  rfl

/-- An anonymous default is exported under the name that takes it between braces. -/
theorem Anonymous.name_defaultExport (h : Anonymous t) :
    (defaultExport t source).name = "default" := by
  rw [defaultExport]
  dsimp only
  cases hv : (t.field? "declaration").or (t.field? "value") with
  | none => rfl
  | some v =>
    obtain ⟨hkind, hname⟩ := h v hv
    rw [Option.bind_some, if_neg hkind, Tree.fieldText, hname]
    rfl

end TypeScript

open TypeScript

variable {exporter importer : ScriptFile} {s t : Tree} {origin : String} {i : Import}

/-- The default of a file is among its exports. -/
theorem ScriptFile.defaultExport_mem_exports (hs : s ∈ exporter.tree.preorder)
    (h : ExportsDefault s) : defaultExport s exporter.source ∈ exporter.parsed.exports :=
  mem_exports.mpr ⟨s, hs, h.kind, by rw [exportsOf_default h]; exact List.mem_singleton_self _⟩

/-- An import is known to use the default of a file exactly if it is a default import or binds the
name under which the file exports it. -/
theorem ScriptFile.defaultExport_mem_confirmed_iff (hs : s ∈ exporter.tree.preorder)
    (h : ExportsDefault s) :
    (defaultExport s exporter.source).name ∈ confirmedSymbols i exporter.parsed ↔
      i.isDefault = true ∨ (defaultExport s exporter.source).name ∈ i.symbols := by
  have hx := ScriptFile.defaultExport_mem_exports hs h
  rw [mem_confirmedSymbols]
  exact or_congr (and_iff_left ⟨_, hx, kind_defaultExport .., rfl⟩) (and_iff_left ⟨_, hx, rfl⟩)

/-- A statement that takes the default export of a source adds an import that is known to use the
default of any file that it means, when it takes it in front of the braces, and between braces when
the default is anonymous. So the component of the importing file depends on that of the file,
through the name of the default. -/
theorem default_depends (hs : s ∈ exporter.tree.preorder) (hdefault : ExportsDefault s)
    (ht : t ∈ importer.tree.preorder)
    (h : TakesDefault importer.source t origin ∨
      (Takes importer.source t origin "default" ∧ Anonymous s)) :
    ∃ i ∈ importer.parsed.imports, i.source = origin ∧
      (defaultExport s exporter.source).name ∈ confirmedSymbols i exporter.parsed ∧
      ∀ (index : ExportIndex) (source target : String) (f g : IndexedFile),
        index.Leads source target f i g → g.parsed = exporter.parsed →
          index.Depends source target i (defaultExport s exporter.source).name := by
  have hbound : ∃ i ∈ importer.parsed.imports, i.source = origin ∧
      (i.isDefault = true ∨ (defaultExport s exporter.source).name ∈ i.symbols) := by
    rcases h with hfront | ⟨hbraces, hanonymous⟩
    · obtain ⟨i, hi, horigin, hisDefault⟩ := ScriptFile.exists_import_of_takesDefault ht hfront
      exact ⟨i, hi, horigin, .inl hisDefault⟩
    · obtain ⟨i, hi, horigin, hname⟩ := ScriptFile.exists_import_of_takes ht hbraces
      exact ⟨i, hi, horigin, .inr (hanonymous.name_defaultExport ▸ hname)⟩
  obtain ⟨i, hi, horigin, hbinds⟩ := hbound
  have hconfirmed := (ScriptFile.defaultExport_mem_confirmed_iff hs hdefault).mpr hbinds
  exact ⟨i, hi, horigin, hconfirmed, fun index source target f g hleads hg =>
    hleads.depends (hg ▸ hconfirmed)⟩

/-- A file that exports a class as its default. -/
def sampleStore : ScriptFile where
  path := "core/store.ts"
  language := .typeScript
  isScript := Language.isScript_typeScript
  source := Utf8.encode "export default class Store \x7b\x7d"
  tree := .node ⟨"program", true, none, 0, 29⟩
    [.node ⟨"export_statement", true, none, 0, 29⟩
      [.node ⟨"export", false, none, 0, 6⟩ [],
        .node ⟨"default", false, none, 7, 14⟩ [],
        .node ⟨"class_declaration", true, some "declaration", 15, 29⟩
          [.node ⟨"class", false, none, 15, 20⟩ [],
            .node ⟨"type_identifier", true, some "name", 21, 26⟩ [],
            .node ⟨"class_body", true, some "body", 27, 29⟩
              [.node ⟨"\x7b", false, none, 27, 28⟩ [], .node ⟨"\x7d", false, none, 28, 29⟩ []]]]]

/-- The source of the import of the file, behind what a clause has in the tree. -/
def sampleStoreTarget (part : Tree) : Tree :=
  .node ⟨"string", true, some "source", part.label.stop + 6, part.label.stop + 21⟩ []

/-- A clause with one part. -/
def sampleStoreClause (part : Tree) : Tree :=
  .node ⟨"import_clause", true, none, 7, part.label.stop⟩ [part]

/-- The statement that imports from the file. -/
def sampleStoreStatement (part : Tree) : Tree :=
  .node ⟨"import_statement", true, none, 0, part.label.stop + 21⟩
    [.node ⟨"import", false, none, 0, 6⟩ [],
      sampleStoreClause part,
      .node ⟨"from", false, none, part.label.stop + 1, part.label.stop + 5⟩ [],
      sampleStoreTarget part]

/-- A file of another component with that statement, and nothing else. -/
def sampleStoreImporter (binding : String) (part : Tree) : ScriptFile where
  path := "app/use.ts"
  language := .typeScript
  isScript := Language.isScript_typeScript
  source := Utf8.encode ("import " ++ binding ++ " from \"../core/store\"")
  tree := .node ⟨"program", true, none, 0, part.label.stop + 21⟩ [sampleStoreStatement part]

/-- The name of a default import. -/
def sampleFront : Tree := .node ⟨"identifier", true, none, 7, 8⟩ []

/-- The default between braces. -/
def sampleBraces : Tree :=
  .node ⟨"named_imports", true, none, 7, 23⟩
    [.node ⟨"\x7b", false, none, 7, 8⟩ [],
      .node ⟨"import_specifier", true, none, 9, 21⟩
        [.node ⟨"identifier", true, some "name", 9, 16⟩ [],
          .node ⟨"as", false, none, 17, 19⟩ [],
          .node ⟨"identifier", true, some "alias", 20, 21⟩ []],
      .node ⟨"\x7d", false, none, 22, 23⟩ []]

/-- A file that takes the default between braces. -/
def sampleBracesImporter : ScriptFile := sampleStoreImporter "\x7b default as D \x7d" sampleBraces

/-- The files of the two components. -/
def sampleStoreIndex (importer : ScriptFile) : ExportIndex :=
  .build [{ component := some "core", parsed := sampleStore.parsed },
    { component := some "app", parsed := importer.parsed }]

theorem exportsDefault_sampleStore : ExportsDefault sampleStore.tree.children[0] :=
  ⟨rfl, _, List.mem_cons_of_mem _ List.mem_cons_self, rfl⟩

theorem mem_sampleStore : sampleStore.tree.children[0] ∈ sampleStore.tree.preorder :=
  List.mem_cons_of_mem _ List.mem_cons_self

theorem sample_default_depends :
    ∃ i ∈ (sampleStoreImporter "D" sampleFront).parsed.imports,
      (sampleStoreIndex (sampleStoreImporter "D" sampleFront)).Depends "app" "core" i "Store" := by
  have hmem : sampleStoreStatement sampleFront ∈
      (sampleStoreImporter "D" sampleFront).tree.preorder :=
    List.mem_cons_of_mem _ List.mem_cons_self
  have hclause : ImportsBy (sampleStoreStatement sampleFront) (sampleStoreClause sampleFront)
      (sampleStoreTarget sampleFront) := ⟨rfl, rfl, rfl, rfl⟩
  have htarget : Text.unquote ((sampleStoreTarget sampleFront).text
      (sampleStoreImporter "D" sampleFront).source) = "../core/store" := by decide +kernel
  have htakes : TakesDefault (sampleStoreImporter "D" sampleFront).source
      (sampleStoreStatement sampleFront) "../core/store" :=
    htarget ▸ .imported hclause List.mem_cons_self rfl
  obtain ⟨i, hi, horigin, -, hdepends⟩ :=
    default_depends mem_sampleStore exportsDefault_sampleStore hmem (.inl htakes)
  have hname : (defaultExport sampleStore.tree.children[0] sampleStore.source).name = "Store" := by
    decide +kernel
  refine ⟨i, hi, hname ▸ hdepends _ "app" "core"
    { component := some "app", parsed := (sampleStoreImporter "D" sampleFront).parsed }
    { component := some "core", parsed := sampleStore.parsed } ?_ rfl⟩
  exact {
    distinct := by decide
    mem := by decide +kernel
    source := rfl
    imports := hi
    isRelative := by
      rw [Import.isRelative, horigin]
      decide +kernel
    means := by
      rw [ExportIndex.target?, horigin]
      decide +kernel
    target := rfl }

/-- A default with a name is not known to be used by a statement that takes it between braces, and
there is no edge. -/
theorem sample_default_between_braces :
    ExportsDefault sampleStore.tree.children[0] ∧
      Takes sampleBracesImporter.source (sampleStoreStatement sampleBraces) "../core/store"
        "default" ∧
      sampleBracesImporter.tree.children = [sampleStoreStatement sampleBraces] ∧
      sampleBracesImporter.parsed.imports.map (confirmedSymbols · sampleStore.parsed) = [[]] ∧
      (resolveEdges (sampleStoreIndex sampleBracesImporter)).edges = [] := by
  have hclause : ImportsBy (sampleStoreStatement sampleBraces) (sampleStoreClause sampleBraces)
      (sampleStoreTarget sampleBraces) := ⟨rfl, rfl, rfl, rfl⟩
  have hspec : sampleBraces.namedChildren[0].fieldText "name" sampleBracesImporter.source =
      some "default" := by
    decide +kernel
  have htarget : Text.unquote ((sampleStoreTarget sampleBraces).text sampleBracesImporter.source) =
      "../core/store" := by
    decide +kernel
  have hdefault : Text.unquote "default" = "default" := by decide +kernel
  have htakes := Takes.imported hclause List.mem_cons_self rfl (List.getElem_mem _) rfl hspec
  rw [htarget, hdefault] at htakes
  exact ⟨exportsDefault_sampleStore, htakes, rfl, by decide +kernel, by decide +kernel⟩

end ChangeImpact
