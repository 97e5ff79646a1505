import ChangeImpact.Proofs.Graph.Exact
import ChangeImpact.Proofs.Graph.Stored

/-!
# Imports between stored files

The files with symbols decide which imports there are between two components, whatever
index they are looked up in. Where the stored graph is current, an edge of the parser
leads from one component to another exactly when such an import has symbols.
-/

namespace ChangeImpact

namespace Store

variable {s : Store} {project source target : String} {P : Import → ParsedFile → Prop}

/-- A file of a project with the symbols that were found in it. -/
structure Snapshotted (s : Store) (project : String) (f : ProjectFile) (symbols : ParsedFile) :
    Prop where
  file : f ∈ s.files
  project : f.project = project
  symbols : f.symbols = some symbols

/-- The paths of the files with symbols. -/
def snapshottedPaths (s : Store) (project : String) : List String :=
  (s.files.filter fun f => f.project = project ∧ f.symbols.isSome).map (·.path)

/-- A file of one component imports a file of another in a way that has a property. -/
def Imports (s : Store) (project source target : String) (P : Import → ParsedFile → Prop) : Prop :=
  ∃ f symbols, s.Snapshotted project f symbols ∧ f.component = some source ∧
    ∃ i ∈ symbols.imports, i.isRelative = true ∧
      ∃ g exported, s.Snapshotted project g exported ∧ g.component = some target ∧
        Path.resolve f.path i.source (s.snapshottedPaths project) = some g.path ∧ P i exported

theorem mem_indexed_iff {g : IndexedFile} :
    g ∈ s.indexed project ↔ ∃ f symbols, s.Snapshotted project f symbols ∧
      g = { component := f.component, parsed := { symbols with path := f.path } } := by
  rw [mem_indexed]
  constructor
  · rintro ⟨f, hf, hp, hg⟩
    obtain ⟨symbols, hs, rfl⟩ := Option.map_eq_some_iff.mp hg
    exact ⟨f, symbols, ⟨hf, hp, hs⟩, rfl⟩
  · rintro ⟨f, symbols, ⟨hf, hp, hs⟩, rfl⟩
    exact ⟨f, hf, hp, by rw [indexed?, hs, Option.map_some]⟩

/-- No two indexed files share a path. -/
theorem nodup_paths_indexed (h : s.Consistent) (project : String) :
    ((s.indexed project).map (·.path)).Nodup := by
  have hrows : (s.files.filter (·.project = project)).Pairwise fun f g => f.path ≠ g.path := by
    refine (List.pairwise_map.mp (h.filePlaces.filter _)).imp_of_mem fun hf hg hne hpath => hne ?_
    rw [of_decide_eq_true (List.mem_filter.mp hf).2, of_decide_eq_true (List.mem_filter.mp hg).2,
      hpath]
  rw [List.Nodup, List.pairwise_map, indexed, List.pairwise_filterMap]
  refine (((List.mergeSort_perm _ _).pairwise_iff fun hne => Ne.symm hne).mpr hrows).imp ?_
  intro f g hne x hx y hy
  obtain ⟨_, -, rfl⟩ := Option.map_eq_some_iff.mp hx
  obtain ⟨_, -, rfl⟩ := Option.map_eq_some_iff.mp hy
  exact hne

/-- An indexed file is told by its path. -/
theorem indexed_path_inj (h : s.Consistent) :
    ∀ f ∈ s.indexed project, ∀ g ∈ s.indexed project, f.path = g.path → f = g :=
  fun _ hf _ hg => List.inj_on_of_nodup_map (nodup_paths_indexed h project) hf hg

/-- The graph of a project does not depend on the order of its files. -/
theorem build_indexed (h : s.Consistent) (project : String) :
    DependencyGraph.build (s.indexed project) =
      DependencyGraph.build ((s.files.filter (·.project = project)).filterMap indexed?) :=
  (DependencyGraph.build_perm (nodup_paths_indexed h project)
    ((List.mergeSort_perm _ _).filterMap indexed?)).symm

/-- The known paths of the index are those of the files with symbols. -/
theorem mem_paths_indexed {path : String} :
    path ∈ (ExportIndex.build (s.indexed project)).paths ↔ path ∈ s.snapshottedPaths project := by
  rw [ExportIndex.mem_paths_build, snapshottedPaths, List.mem_map]
  constructor
  · rintro ⟨g, hg, rfl⟩
    obtain ⟨f, symbols, hf, rfl⟩ := mem_indexed_iff.mp hg
    refine ⟨f, List.mem_filter.mpr ⟨hf.file, decide_eq_true ⟨hf.project, ?_⟩⟩, rfl⟩
    rw [hf.symbols]
    rfl
  · rintro ⟨f, hf, rfl⟩
    obtain ⟨hmem, hcond⟩ := List.mem_filter.mp hf
    obtain ⟨hp, hs⟩ := of_decide_eq_true hcond
    obtain ⟨symbols, hs⟩ := Option.isSome_iff_exists.mp hs
    exact ⟨_, mem_indexed_iff.mpr ⟨f, symbols, ⟨hmem, hp, hs⟩, rfl⟩, rfl⟩

/-- The index of a project shows the imports between its files, as far as the paths inside
their symbols do not matter. -/
theorem imports_indexed (h : s.Consistent)
    (hP : ∀ i (g : ParsedFile) path, P i { g with path } ↔ P i g) :
    (ExportIndex.build (s.indexed project)).Imports source target P ↔
      s.Imports project source target P := by
  have hinj : ∀ f ∈ s.indexed project, ∀ g ∈ s.indexed project, f.path = g.path → f = g :=
    indexed_path_inj h
  have hresolve (importer source : String) :
      Path.resolve importer source (ExportIndex.build (s.indexed project)).paths =
        Path.resolve importer source (s.snapshottedPaths project) :=
    Path.resolve_congr fun _ => mem_paths_indexed
  constructor
  · rintro ⟨x, hx, hsource, i, hi, hrel, y, hy, htarget, hp⟩
    rw [ExportIndex.mem_toList_build hinj] at hx
    rw [ExportIndex.target?_build_eq_some hinj, hresolve] at hy
    obtain ⟨f, symbols, hf, rfl⟩ := mem_indexed_iff.mp hx
    obtain ⟨g, exported, hg, rfl⟩ := mem_indexed_iff.mp hy.1
    exact ⟨f, symbols, hf, hsource, i, hi, hrel, g, exported, hg, htarget, hy.2,
      (hP i exported g.path).mp hp⟩
  · rintro ⟨f, symbols, hf, hsource, i, hi, hrel, g, exported, hg, htarget, hres, hp⟩
    refine ⟨_, (ExportIndex.mem_toList_build hinj).mpr (mem_indexed_iff.mpr ⟨f, symbols, hf, rfl⟩),
      hsource, i, hi, hrel,
      { component := g.component, parsed := { exported with path := g.path } }, ?_, htarget,
      (hP i exported g.path).mpr hp⟩
    rw [ExportIndex.target?_build_eq_some hinj, hresolve]
    exact ⟨mem_indexed_iff.mpr ⟨g, exported, hg, rfl⟩, hres⟩

theorem Imports.imp {Q : Import → ParsedFile → Prop} (h : s.Imports project source target P)
    (hPQ : ∀ i g, P i g → Q i g) : s.Imports project source target Q := by
  obtain ⟨f, symbols, hf, hsource, i, hi, hrel, g, exported, hg, htarget, hres, hp⟩ := h
  exact ⟨f, symbols, hf, hsource, i, hi, hrel, g, exported, hg, htarget, hres, hPQ i exported hp⟩

/-! ## Graphs that are current -/

/-- What the parser found in a project is the graph of its files as they are. -/
def IsCurrent (s : Store) (project : String) : Prop :=
  ∀ e, (⟨project, e⟩ ∈ s.edges ∧ e.method = .parser) ↔
    e ∈ (DependencyGraph.build (s.indexed project)).edges

/-- Storing the graph of the files makes it current. -/
theorem isCurrent_withGraph :
    (s.withGraph project (DependencyGraph.build (s.indexed project))).IsCurrent project := by
  intro e
  show (⟨project, e⟩ : StoredEdge) ∈ _ ++ _ ∧ _ ↔
    e ∈ (DependencyGraph.build (s.indexed project)).edges
  have hparser {d : DependencyEdge} (hd : d ∈ (DependencyGraph.build (s.indexed project)).edges) :
      { d with method := .parser } = d := by
    rw [← DependencyEdge.method_of_mem_merge hd]
  constructor
  · rintro ⟨he, hm⟩
    rcases List.mem_append.mp he with he | he
    · have hgone := (List.mem_filter.mp he).2
      simp [hm] at hgone
    · obtain ⟨d, hd, heq⟩ := List.mem_map.mp he
      rw [hparser hd] at heq
      cases heq
      exact hd
  · intro he
    refine ⟨List.mem_append_right _ (List.mem_map.mpr ⟨e, he, ?_⟩),
      DependencyEdge.method_of_mem_merge he⟩
    rw [hparser he]

/-- In a current graph an import that binds everything, or a name that is known to be
exported, has an edge. -/
theorem IsCurrent.exists_edge (hs : s.Consistent) (hg : s.IsCurrent project)
    (hne : source ≠ target)
    (h : s.Imports project source target fun i g =>
      i.bindsEverything = true ∨ ∃ name, name ∈ confirmedSymbols i g) :
    ∃ row ∈ s.edges, row.project = project ∧ row.edge.source = source ∧
      row.edge.target = target := by
  have himports := (imports_indexed hs fun i g path => Iff.rfl).mpr
    (h.imp fun i g hu => edgeSymbols_isSome_iff.mpr hu)
  obtain ⟨e, he, hends⟩ := List.mem_map.mp (mem_ends_build.mpr ⟨hne.symm, himports⟩)
  obtain ⟨hsource, htarget⟩ := Ends.mk.inj hends
  exact ⟨_, ((hg e).mpr he).1, rfl, hsource, htarget⟩

end Store

end ChangeImpact
