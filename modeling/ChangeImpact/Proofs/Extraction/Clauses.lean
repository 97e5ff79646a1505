import ChangeImpact.Proofs.Extraction.Scripts
import ChangeImpact.Proofs.Graph.Confirmed

/-!
# What export clauses export

An export clause stands in one of two statements. Without a source it exports each of its
specifiers, under the alias if there is one, and every component that imports such a name depends on
the component of the file. With a source the statement exports nothing and is an import: it binds
the names of the specifiers, not their aliases, from that source.
-/

namespace ChangeImpact

open Syntax

namespace TypeScript

variable {t clause target : Tree} {source : Bytes}

/-- An export statement with a clause, which is neither a default export nor a declaration. -/
structure ExportsBy (t clause : Tree) : Prop where
  kind : t.kind = "export_statement"
  named : ∀ c ∈ t.children, c.kind ≠ "default"
  declaration : t.field? "declaration" = none
  clause : t.findChild "export_clause" = some clause

/-- The name under which a specifier exports. -/
def exportedName (spec : Tree) (source : Bytes) : Option String :=
  (spec.fieldText "alias" source).or (spec.fieldText "name" source)

theorem map_name_specifierExport (line : Nat) (source : Bytes) (spec : Tree) :
    (specifierExport line source spec).map (·.name) = exportedName spec source := by
  rw [specifierExport, exportedName, Option.map_map]
  exact Option.map_id'

theorem exportsOf_eq (h : ExportsBy t clause) : exportsOf t source =
    if (t.field? "source").isSome then []
    else clause.namedChildren.filterMap (specifierExport (t.line source) source) := by
  rw [exportsOf, if_neg (not_any_default h.named), h.declaration, h.clause]

/-- Without a source a statement exports exactly the specifiers of its clause, in their order. -/
theorem map_name_exportsOf (h : ExportsBy t clause) (hsource : t.field? "source" = none) :
    (exportsOf t source).map (·.name) = clause.namedChildren.filterMap (exportedName · source) := by
  rw [exportsOf_eq h, hsource, Option.isSome_none, if_neg Bool.false_ne_true, List.map_filterMap]
  exact List.filterMap_congr fun spec _ => map_name_specifierExport ..

/-- With a source a statement exports nothing. -/
theorem exportsOf_eq_nil (h : ExportsBy t clause) (hsource : t.field? "source" = some target) :
    exportsOf t source = [] := by
  rw [exportsOf_eq h, hsource, Option.isSome_some, if_pos rfl]

/-- With a source a statement is an import of the names of its specifiers. -/
theorem importOfExport_clause (h : ExportsBy t clause) (hsource : t.field? "source" = some target) :
    importOfExport t source =
      some (Import.bindAll { source := Text.unquote (target.text source), line := t.line source }
        (clause.namedChildren.filterMap (·.fieldText "name" source))) := by
  rw [importOfExport]
  simp only [Tree.fieldText, hsource, h.clause, Option.map_some, Option.bind_eq_bind,
    Option.bind_some]

end TypeScript

open TypeScript

variable {f : ScriptFile} {t clause : Tree}

/-- An import that binds a name which a file exports is known to use it, so its component depends
on that of the file. -/
theorem ScriptFile.depends_of_export {name : String} {x : Export} (hx : x ∈ f.parsed.exports)
    (hname : x.name = name) {index : ExportIndex} {source target : String}
    {importer g : IndexedFile} {i : Import} (hleads : index.Leads source target importer i g)
    (hg : g.parsed = f.parsed) (hi : name ∈ i.symbols) :
    name ∈ confirmedSymbols i f.parsed ∧ index.Depends source target i name := by
  have hconfirmed : name ∈ confirmedSymbols i f.parsed :=
    mem_confirmedSymbols.mpr (.inr ⟨hi, x, hx, hname⟩)
  exact ⟨hconfirmed, hleads.depends (hg ▸ hconfirmed)⟩

/-- A statement with an export clause exports exactly the specifiers of the clause, and any
component that imports one of them from the file depends on that of the file. A statement with a
source exports nothing, and imports the names of the specifiers from it. -/
theorem clause_exports_or_imports (ht : t ∈ f.tree.preorder) (h : ExportsBy t clause) :
    (t.field? "source" = none →
      (exportsOf t f.source).map (·.name) =
          clause.namedChildren.filterMap (exportedName · f.source) ∧
        ∀ spec ∈ clause.namedChildren, ∀ name, exportedName spec f.source = some name →
          (∃ x ∈ f.parsed.exports, x.name = name) ∧
          ∀ (index : ExportIndex) (source target : String) (importer g : IndexedFile) (i : Import),
            index.Leads source target importer i g → g.parsed = f.parsed → name ∈ i.symbols →
              name ∈ confirmedSymbols i f.parsed ∧ index.Depends source target i name) ∧
    ∀ target, t.field? "source" = some target →
      exportsOf t f.source = [] ∧
        ∃ i ∈ f.parsed.imports, i.source = Text.unquote (target.text f.source) ∧
          ∀ name, name ∈ i.symbols ↔
            ∃ spec ∈ clause.namedChildren, spec.fieldText "name" f.source = some name := by
  refine ⟨fun hsource => ⟨map_name_exportsOf h hsource, fun spec hspec name hname => ?_⟩,
    fun target hsource => ⟨exportsOf_eq_nil h hsource, ?_⟩⟩
  · have hmem : name ∈ (exportsOf t f.source).map (·.name) := by
      rw [map_name_exportsOf h hsource]
      exact List.mem_filterMap.mpr ⟨spec, hspec, hname⟩
    obtain ⟨x, hx, hxname⟩ := List.mem_map.mp hmem
    have hexport : x ∈ f.parsed.exports := ScriptFile.mem_exports.mpr ⟨t, ht, h.kind, hx⟩
    exact ⟨⟨x, hexport, hxname⟩, fun index source target importer g i hleads hg hi =>
      ScriptFile.depends_of_export hexport hxname hleads hg hi⟩
  · refine ScriptFile.exists_import ht (.inr h.kind) fun n hn => ?_
    subst hn
    refine ⟨_, (importOf_of_export h.kind).trans (importOfExport_clause h hsource),
      (Import.within_bindAll ..).source, fun name => ?_⟩
    rw [Import.mem_symbols_bindAll, List.mem_filterMap]
    exact or_iff_right List.not_mem_nil

/-- A clause that exports a name under an alias. -/
def sampleClause : Tree :=
  .node ⟨"export_clause", true, none, 7, 17⟩
    [.node ⟨"\x7b", false, none, 7, 8⟩ [],
      .node ⟨"export_specifier", true, none, 9, 15⟩
        [.node ⟨"identifier", true, some "name", 9, 10⟩ [],
          .node ⟨"as", false, none, 11, 13⟩ [],
          .node ⟨"identifier", true, some "alias", 14, 15⟩ []],
      .node ⟨"\x7d", false, none, 16, 17⟩ []]

/-- The statement with that clause; `origin` is what its tree has for the source. -/
def sampleClauseStatement (origin : List Tree) (stop : Nat) : Tree :=
  .node ⟨"export_statement", true, none, 0, stop⟩
    (.node ⟨"export", false, none, 0, 6⟩ [] :: sampleClause :: origin)

/-- A file with that statement, and nothing else. -/
def sampleBarrel (rest : String) (origin : List Tree) : ScriptFile where
  path := "core/index.ts"
  language := .typeScript
  isScript := Language.isScript_typeScript
  source := Utf8.encode ("export \x7b x as y \x7d" ++ rest)
  tree := .node ⟨"program", true, none, 0, rest.length + 17⟩
    [sampleClauseStatement origin (rest.length + 17)]

/-- What the tree has for a source. -/
def sampleOrigin : List Tree :=
  [.node ⟨"from", false, none, 18, 22⟩ [],
    .node ⟨"string", true, some "source", 23, 28⟩
      [.node ⟨"\"", false, none, 23, 24⟩ [],
        .node ⟨"string_fragment", true, none, 24, 27⟩ [],
        .node ⟨"\"", false, none, 27, 28⟩ []]]

/-- A file that exports the name from a source, and nothing else. -/
def sampleReexport : ScriptFile := sampleBarrel " from \"./m\"" sampleOrigin

/-- An import of the alias. -/
def sampleAliasImport : Import := { source := "../core/index", symbols := ["y"], line := 1 }

/-- A file of another component with that import. -/
def sampleAliasImporter : IndexedFile where
  component := some "app"
  parsed := { path := "app/use.ts", language := "typescript", imports := [sampleAliasImport] }

/-- The files of the two components. -/
def sampleBarrelIndex (f : ScriptFile) : ExportIndex :=
  .build [{ component := some "core", parsed := f.parsed }, sampleAliasImporter]

theorem sample_clause_exports :
    "y" ∈ confirmedSymbols sampleAliasImport (sampleBarrel "" []).parsed ∧
      (sampleBarrelIndex (sampleBarrel "" [])).Depends "app" "core" sampleAliasImport "y" := by
  have hmem : sampleClauseStatement [] 17 ∈ (sampleBarrel "" []).tree.preorder :=
    List.mem_cons_of_mem _ List.mem_cons_self
  have hclause : ExportsBy (sampleClauseStatement [] 17) sampleClause :=
    ⟨rfl, by decide +kernel, rfl, rfl⟩
  have hspec : exportedName sampleClause.namedChildren[0] (sampleBarrel "" []).source =
      some "y" := by
    decide +kernel
  have hexported := ((clause_exports_or_imports hmem hclause).1 rfl).2 _ (List.getElem_mem _) _
    hspec
  refine hexported.2 (sampleBarrelIndex (sampleBarrel "" [])) "app" "core" sampleAliasImporter
    { component := some "core", parsed := (sampleBarrel "" []).parsed } sampleAliasImport ?_ rfl
    List.mem_cons_self
  exact {
    distinct := by decide
    mem := by decide +kernel
    source := rfl
    imports := List.mem_cons_self
    isRelative := by decide +kernel
    means := by decide +kernel
    target := rfl }

/-- A clause with a source exports none of its specifiers, so an import of one of them is not known
to use it and makes no edge. -/
theorem sample_clause_with_source :
    ExportsBy (sampleClauseStatement sampleOrigin 28) sampleClause ∧
      sampleClause.namedChildren.filterMap
        (exportedName · sampleReexport.source) = ["y"] ∧
      sampleReexport.tree.children = [sampleClauseStatement sampleOrigin 28] ∧
      exportsOf (sampleClauseStatement sampleOrigin 28) sampleReexport.source = [] ∧
      confirmedSymbols sampleAliasImport sampleReexport.parsed = [] ∧
      (resolveEdges (sampleBarrelIndex sampleReexport)).edges = [] :=
  ⟨⟨rfl, by decide +kernel, rfl, rfl⟩, by decide +kernel, rfl, by decide +kernel, by decide +kernel,
    by decide +kernel⟩

end ChangeImpact
