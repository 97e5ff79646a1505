import ChangeImpact.Proofs.Graph.Edges

/-!
# What a graph says about its files

When no two files share a path, the graph of a list of files is determined by
which imports mean which files. An edge stands for the imports that lead from
the files of one component to those of another, its symbols for the names that
these imports are known to use, and the imports that lead nowhere are listed in
the order of the files. The order of the list does not matter.
-/

namespace ChangeImpact

variable {files files' : List IndexedFile}

/-- An import of a file of one component means a file of another among the given ones. -/
def IndexedFile.Links (files : List IndexedFile) (source target : String) (i : Import)
    (g : IndexedFile) : Prop :=
  i.isRelative = true ∧ g ∈ files ∧ g.component = some target ∧
    ∃ f ∈ files, f.component = some source ∧ i ∈ f.parsed.imports ∧
      Path.resolve f.path i.source (files.map (·.path)) = some g.path

/-- The imports of a file that lead out of the project: those of an owned file that are not
relative or mean none of the known paths. -/
def IndexedFile.leaving (known : List String) (f : IndexedFile) : List ExternalDependency :=
  if f.component.isSome then
    (f.parsed.imports.filter fun i =>
      !i.isRelative || (Path.resolve f.path i.source known).isNone).map fun i =>
        { filePath := f.path, source := i.source, line := i.line }
  else []

/-- A graph tells exactly how the given files depend on each other. -/
structure DependencyGraph.Exact (files : List IndexedFile) (graph : DependencyGraph) : Prop where
  /-- Two components are connected when an import links them that binds everything or a name
  that is exported. -/
  connected : ∀ source target, ⟨source, target⟩ ∈ graph.edges.map (·.ends) ↔
    source ≠ target ∧ ∃ i g, IndexedFile.Links files source target i g ∧
      (i.bindsEverything = true ∨ confirmedSymbols i g.parsed ≠ [])
  /-- The symbols of an edge are those of the links that do not bind everything. -/
  symbols : ∀ e ∈ graph.edges, ∀ name, name ∈ e.symbols ↔
    ∃ i g, IndexedFile.Links files e.source e.target i g ∧ i.bindsEverything = false ∧
      name ∈ confirmedSymbols i g.parsed
  /-- The symbols of an edge are listed once, ascending. -/
  ascending : ∀ e ∈ graph.edges, e.symbols.Pairwise (· < ·)
  /-- The symbols of an edge are exported by a file of its target. -/
  exported : ∀ e ∈ graph.edges, ∀ name ∈ e.symbols,
    ∃ g ∈ files, g.component = some e.target ∧ ∃ x ∈ g.parsed.exports, x.name = name
  /-- The edges strictly ascend by source and target. -/
  sorted : (graph.edges.map (·.ends)).Pairwise (· < ·)
  /-- No edge leads from a component to itself. -/
  irreflexive : ∀ e ∈ graph.edges, e.source ≠ e.target
  /-- The imports that lead out are listed by path, then in source order. -/
  external : ∃ ordered : List IndexedFile, ordered.Perm files ∧
    (ordered.map (·.path)).Pairwise (· < ·) ∧
    graph.external = ordered.flatMap (IndexedFile.leaving (files.map (·.path)))

/-- An index resolves an import as the paths of its files do. -/
theorem ExportIndex.resolve_build (importer source : String) :
    (ExportIndex.build files).resolve importer source =
      Path.resolve importer source (files.map (·.path)) := by
  refine Path.resolve_congr fun p => ?_
  rw [ExportIndex.mem_paths_build, List.mem_map]

/-- What the index says about the imports between two components is what the links say. -/
theorem ExportIndex.imports_build_iff (h : (files.map (·.path)).Nodup) {source target : String}
    {P : Import → ParsedFile → Prop} :
    (ExportIndex.build files).Imports source target P ↔
      ∃ i g, IndexedFile.Links files source target i g ∧ P i g.parsed := by
  have hd : ∀ f ∈ files, ∀ g ∈ files, f.path = g.path → f = g :=
    fun f hf g hg => List.inj_on_of_nodup_map h hf hg
  have hresolve (f : IndexedFile) (i : Import) : (ExportIndex.build files).resolve f.path i.source =
      Path.resolve f.path i.source (files.map (·.path)) := resolve_build f.path i.source
  simp only [ExportIndex.resolve] at hresolve
  simp only [ExportIndex.Imports, mem_toList_build hd, target?_build_eq_some hd, hresolve]
  constructor
  · rintro ⟨f, hf, hs, i, hi, hrel, g, ⟨hg, hr⟩, ht, hP⟩
    exact ⟨i, g, ⟨hrel, hg, ht, f, hf, hs, hi, hr⟩, hP⟩
  · rintro ⟨i, g, ⟨hrel, hg, ht, f, hf, hs, hi, hr⟩, hP⟩
    exact ⟨f, hf, hs, i, hi, hrel, g, ⟨hg, hr⟩, ht, hP⟩

/-- The imports of a file that the graph lists as leading out. -/
theorem filterMap_externalOf (f : IndexedFile) :
    f.parsed.imports.filterMap (externalOf (ExportIndex.build files) f) =
      f.leaving (files.map (·.path)) := by
  have hnone {i : Import} (hrel : i.isRelative = false) :
      Path.resolve f.path i.source (files.map (·.path)) = none := by
    rw [Path.resolve, if_neg (by rw [← Import.isRelative, hrel]; exact Bool.false_ne_true)]
  rw [IndexedFile.leaving]
  cases hc : f.component with
  | none => simp [externalOf, hc]
  | some owner =>
    rw [Option.isSome_some, if_pos rfl, ← List.filterMap_eq_map, List.filterMap_filter]
    refine List.filterMap_congr fun i _ => ?_
    rw [externalOf, hc, ExportIndex.resolve_build]
    cases hrel : i.isRelative with
    | false => simp [hnone hrel]
    | true => simp

/-- The imports that lead out, file by file. -/
theorem external_build (files : List IndexedFile) :
    (DependencyGraph.build files).external =
      (ExportIndex.build files).toList.flatMap (IndexedFile.leaving (files.map (·.path))) :=
  congrArg (fun leaving => List.flatMap leaving (ExportIndex.build files).toList)
    (funext filterMap_externalOf)

/-- A graph depends on the files of the index, not on how names are looked up in it. -/
theorem resolveEdges_congr {a b : ExportIndex} (h : a.files = b.files) :
    resolveEdges a = resolveEdges b := by
  obtain ⟨files, exporters⟩ := a
  obtain ⟨files', exporters'⟩ := b
  cases h
  rfl

/-- The graph depends on which files there are, not on how they are listed. -/
theorem DependencyGraph.build_congr (h : (files.map (·.path)).Nodup) (h' : (files'.map (·.path)).Nodup)
    (hm : ∀ f, f ∈ files ↔ f ∈ files') :
    DependencyGraph.build files = DependencyGraph.build files' := by
  simp only [DependencyGraph.build, resolveEdges_congr (ExportIndex.files_build_congr h h' hm)]

/-- The graph of files with different paths tells exactly how they depend on each other. -/
theorem DependencyGraph.exact_of_nodup (h : (files.map (·.path)).Nodup) :
    (DependencyGraph.build files).Exact files := by
  have hsymbols : ∀ e ∈ (DependencyGraph.build files).edges, ∀ name, name ∈ e.symbols ↔
      ∃ i g, IndexedFile.Links files e.source e.target i g ∧ i.bindsEverything = false ∧
        name ∈ confirmedSymbols i g.parsed :=
    fun e he name => (mem_symbols_build he).trans (ExportIndex.imports_build_iff h)
  refine { connected := fun source target => ?_
           symbols := hsymbols
           ascending := fun e he => DependencyEdge.pairwise_symbols_merge he
           exported := fun e he name hname => ?_
           sorted := DependencyEdge.pairwise_ends_merge
           irreflexive := fun e he => (ends_of_mem_build he).1
           external := ?_ }
  · rw [mem_ends_build, ExportIndex.imports_build_iff h, ne_comm]
    simp only [edgeSymbols_isSome_iff, ne_eq, List.eq_nil_iff_forall_not_mem, not_forall, not_not]
  · obtain ⟨i, g, ⟨-, hg, ht, -⟩, -, hconfirmed⟩ := (hsymbols e he name).mp hname
    exact ⟨g, hg, ht, exported_of_mem_confirmedSymbols hconfirmed⟩
  · refine ⟨(ExportIndex.build files).toList, ExportIndex.toList_build_perm h, ?_,
      external_build files⟩
    rw [ExportIndex.map_path_toList_build]
    exact ExportIndex.pairwise_keys_build files

/-- The graph does not depend on the order of the files. -/
theorem DependencyGraph.build_perm (h : (files.map (·.path)).Nodup) (hperm : files.Perm files') :
    DependencyGraph.build files' = DependencyGraph.build files :=
  build_congr ((hperm.map _).nodup_iff.mp h) h fun _ => hperm.mem_iff.symm

/-- The graph of files with different paths tells exactly how they depend on each other, and
is the same for every order of the files. -/
theorem DependencyGraph.build_exact (h : (files.map (·.path)).Nodup) :
    (DependencyGraph.build files).Exact files ∧
      ∀ files', files.Perm files' → DependencyGraph.build files' = DependencyGraph.build files :=
  ⟨exact_of_nodup h, fun _ hperm => build_perm h hperm⟩

/-- Three files of two components: the cart takes a price by name and the whole of the tax
rules, which import from a library. -/
def sampleIndexed : List IndexedFile :=
  [{ component := some "core"
     parsed := { path := "core/tax.ts", language := "typescript"
                 imports := [{ source := "big", symbols := ["Decimal"], line := 1 }]
                 exports := [{ name := "rate", kind := .variable }] } },
   { component := some "cart"
     parsed := { path := "cart/main.ts", language := "typescript"
                 imports := [{ source := "../core/tax", symbols := ["tax"], isWildcard := true },
                   { source := "../core/price", symbols := ["price", "gone"], line := 2 }] } },
   { component := some "core"
     parsed := { path := "core/price.ts", language := "typescript"
                 imports := [{ source := "./tax", symbols := ["rate"], line := 1 }]
                 exports := [{ name := "price", kind := .function }] } }]

theorem sample_build_exact :
    (sampleIndexed.map (·.path)).Nodup ∧
      (DependencyGraph.build sampleIndexed).edges.map (fun e => (e.ends, e.symbols)) =
        [(⟨"cart", "core"⟩, ["price"])] ∧
      (DependencyGraph.build sampleIndexed).Exact sampleIndexed ∧
      DependencyGraph.build sampleIndexed.reverse = DependencyGraph.build sampleIndexed :=
  have h : (sampleIndexed.map (·.path)).Nodup := by decide +kernel
  ⟨h, by decide +kernel, (DependencyGraph.build_exact h).1,
    (DependencyGraph.build_exact h).2 _ sampleIndexed.reverse_perm.symm⟩

end ChangeImpact
