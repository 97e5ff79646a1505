import ChangeImpact.Proofs.Graph.Edges
import ChangeImpact.Proofs.Operation
import ChangeImpact.Proofs.Store.Reading
import ChangeImpact.Workflow.Indexing

/-!
# Storing a graph

The graph that is built from the files of a project can always be stored: its edges
have different ends, their components are there because files refer to them, and
what the parser found before is gone. So rebuilding the graph of a project cannot
fail.
-/

namespace ChangeImpact

/-- The edges of a graph as they are stored. -/
def DependencyGraph.parsedEdges (g : DependencyGraph) : List DependencyEdge :=
  g.edges.map fun e => { e with method := .parser }

/-- A graph of the parser is stored as it is. -/
theorem DependencyGraph.parsedEdges_eq {g : DependencyGraph}
    (hg : ∀ e ∈ g.edges, e.method = .parser) : g.parsedEdges = g.edges := by
  refine (List.map_congr_left fun e he => ?_).trans (List.map_id _)
  rw [← hg e he]
  rfl

theorem DependencyGraph.parsedEdges_build (files : List IndexedFile) :
    (build files).parsedEdges = (build files).edges :=
  parsedEdges_eq fun _ => DependencyEdge.method_of_mem_merge

namespace Store

variable {s : Store} {project : String}

/-- The indexed files of a project. -/
def indexed (s : Store) (project : String) : List IndexedFile :=
  (byPath (s.files.filter (·.project = project))).filterMap indexed?

theorem mem_indexed {g : IndexedFile} :
    g ∈ s.indexed project ↔ ∃ f ∈ s.files, f.project = project ∧ indexed? f = some g := by
  rw [indexed, List.mem_filterMap]
  refine exists_congr fun f => ?_
  rw [byPath, Ordered.mem_sortBy, List.mem_filter, decide_eq_true_eq, and_assoc]

/-- The store with a given graph in place of what the parser found in a project. -/
def withGraph (project : String) (g : DependencyGraph) (s : Store) : Store :=
  let cleared := s.clearGraph project
  { cleared with
    edges := cleared.edges ++ g.edges.map fun e => ⟨project, { e with method := .parser }⟩
    external := cleared.external ++ g.external.map fun d => ⟨project, d⟩ }

/-- An edge of its own can be added between components that are there. -/
theorem insertEdge_eq_ok {e : DependencyEdge} (hne : e.source ≠ e.target)
    (hfree : ∀ row ∈ s.edges, connects project e row = false)
    (hp : s.hasProject project = true) (hs : s.hasComponent e.source = true)
    (ht : s.hasComponent e.target = true) :
    s.insertEdge project e = .ok { s with edges := s.edges ++ [⟨project, e⟩] } := by
  have hk : s.edges.any (connects project e) = false := by
    rw [List.any_eq_false]
    intro row hrow
    rw [hfree row hrow]
    exact Bool.false_ne_true
  refine demand_bind_ok.mpr ⟨decide_eq_true hne, demand_bind_ok.mpr ⟨?_, ?_⟩⟩
  · rw [hk]
    rfl
  · refine demand_bind_ok.mpr ⟨?_, rfl⟩
    rw [hp, hs, ht]
    rfl

/-- Edges with pairwise different ends between known components can be added one after the
other when none of them is there yet. -/
theorem foldlM_insertEdge (es : List DependencyEdge) (hp : s.hasProject project = true)
    (hn : (es.map (·.ends)).Nodup) (hne : ∀ e ∈ es, e.source ≠ e.target)
    (hc : ∀ e ∈ es, s.hasComponent e.source = true ∧ s.hasComponent e.target = true)
    (hfree : ∀ e ∈ es, ∀ row ∈ s.edges, connects project { e with method := .parser } row = false) :
    es.foldlM (fun s e => s.insertEdge project { e with method := .parser }) s =
      .ok { s with
        edges := s.edges ++ es.map fun e => ⟨project, { e with method := .parser }⟩ } := by
  induction es generalizing s with
  | nil => simp [pure, Except.pure]
  | cons e es ih =>
    rw [List.map_cons, List.nodup_cons] at hn
    have hfirst : s.insertEdge project { e with method := .parser } =
        .ok { s with edges := s.edges ++ [⟨project, { e with method := .parser }⟩] } :=
      insertEdge_eq_ok (hne e (List.mem_cons_self ..)) (hfree e (List.mem_cons_self ..)) hp
        (hc e (List.mem_cons_self ..)).1 (hc e (List.mem_cons_self ..)).2
    rw [List.foldlM_cons, hfirst]
    refine (ih (s := { s with edges := s.edges ++ [⟨project, { e with method := .parser }⟩] }) hp
      hn.2 (fun d hd => hne d (List.mem_cons_of_mem _ hd))
      (fun d hd => hc d (List.mem_cons_of_mem _ hd)) ?_).trans ?_
    · intro d hd row hrow
      rcases List.mem_append.mp hrow with hrow | hrow
      · exact hfree d (List.mem_cons_of_mem _ hd) row hrow
      · rw [List.mem_singleton.mp hrow, ← Bool.not_eq_true, connects_iff]
        intro heq
        injection heq with _ heq
        injection heq with hsource heq
        injection heq with htarget _
        apply hn.1
        rw [show e.ends = d.ends from congrArg₂ Ends.mk hsource htarget]
        exact List.mem_map_of_mem hd
    · rw [List.append_assoc]
      rfl

/-- Storing a graph a second time changes nothing. -/
theorem withGraph_withGraph (g : DependencyGraph) :
    (s.withGraph project g).withGraph project g = s.withGraph project g := by
  have hedges : (g.edges.map fun e => (⟨project, { e with method := .parser }⟩ : StoredEdge)).filter
      (fun e => !(e.project = project && e.edge.method = .parser)) = [] := by
    rw [List.filter_eq_nil_iff]
    simp
  have hexternal : (g.external.map fun d => (⟨project, d⟩ : StoredExternal)).filter
      (·.project ≠ project) = [] := by
    rw [List.filter_eq_nil_iff]
    simp
  simp only [withGraph, clearGraph, List.filter_append, List.filter_filter, Bool.and_self,
    hedges, hexternal, List.append_nil]

/-- Whether a row is an edge that the parser found in a project. -/
def isParsed (project : String) (e : StoredEdge) : Bool :=
  e.project = project && e.edge.method = .parser

/-- What the parser found in a project, after a graph was stored. -/
theorem map_edge_withGraph (g : DependencyGraph) :
    ((s.withGraph project g).edges.filter (isParsed project)).map (·.edge) = g.parsedEdges := by
  have hold : (s.clearGraph project).edges.filter (isParsed project) = [] := by
    rw [List.filter_eq_nil_iff]
    intro e he hparsed
    have hnot := (List.mem_filter.mp he).2
    rw [isParsed] at hparsed
    rw [hparsed] at hnot
    cases hnot
  have hnew : (g.edges.map fun e => (⟨project, { e with method := .parser }⟩ : StoredEdge)).filter
      (isParsed project) = g.edges.map fun e => ⟨project, { e with method := .parser }⟩ := by
    rw [List.filter_eq_self]
    intro row hrow
    obtain ⟨e, -, rfl⟩ := List.mem_map.mp hrow
    simp [isParsed]
  rw [withGraph, List.filter_append, hold, hnew, List.nil_append, List.map_map]
  rfl

/-- A graph of the parser is found as it was stored. -/
theorem parsed_withGraph {g : DependencyGraph} (hg : ∀ e ∈ g.edges, e.method = .parser) :
    ((s.withGraph project g).edges.filter (isParsed project)).map (·.edge) = g.edges :=
  (map_edge_withGraph g).trans (DependencyGraph.parsedEdges_eq hg)

/-- All other edges stay. -/
theorem filter_not_isParsed_withGraph (g : DependencyGraph) :
    (s.withGraph project g).edges.filter (!isParsed project ·) =
      s.edges.filter (!isParsed project ·) := by
  have hnew : (g.edges.map fun e => (⟨project, { e with method := .parser }⟩ : StoredEdge)).filter
      (!isParsed project ·) = [] := by
    rw [List.filter_eq_nil_iff]
    intro row hrow
    obtain ⟨e, -, rfl⟩ := List.mem_map.mp hrow
    simp [isParsed]
  rw [withGraph, List.filter_append, hnew, List.append_nil]
  exact List.filter_filter.trans (by simp only [Bool.and_self, isParsed])

/-- The imports that lead out of a project, after a graph was stored. -/
theorem external_withGraph (g : DependencyGraph) :
    ((s.withGraph project g).external.filter (·.project = project)).map (·.dependency) =
      g.external := by
  have hold : (s.clearGraph project).external.filter (·.project = project) = [] := by
    rw [List.filter_eq_nil_iff]
    intro d hd
    have hnot := (List.mem_filter.mp hd).2
    simpa using hnot
  have hnew : (g.external.map fun d => (⟨project, d⟩ : StoredExternal)).filter
      (·.project = project) = g.external.map fun d => ⟨project, d⟩ := by
    rw [List.filter_eq_self]
    intro row hrow
    obtain ⟨d, -, rfl⟩ := List.mem_map.mp hrow
    exact decide_eq_true rfl
  rw [withGraph, List.filter_append, hold, hnew, List.nil_append, List.map_map]
  exact List.map_id _

/-- The imports that lead out of other projects stay. -/
theorem filter_external_withGraph (g : DependencyGraph) :
    (s.withGraph project g).external.filter (·.project ≠ project) =
      s.external.filter (·.project ≠ project) := by
  have hnew : (g.external.map fun d => (⟨project, d⟩ : StoredExternal)).filter
      (·.project ≠ project) = [] := by
    rw [List.filter_eq_nil_iff]
    intro row hrow
    obtain ⟨d, -, rfl⟩ := List.mem_map.mp hrow
    simp
  rw [withGraph, List.filter_append, hnew, List.append_nil, clearGraph, List.filter_filter]
  simp only [Bool.and_self]

theorem foldlM_insertExternal {ds : List ExternalDependency} (hp : s.hasProject project = true) :
    ds.foldlM (fun s d => s.insertExternal project d) s =
      .ok { s with external := s.external ++ ds.map fun d => ⟨project, d⟩ } := by
  induction ds generalizing s with
  | nil => simp [pure, Except.pure]
  | cons d ds ih =>
    have hfirst : s.insertExternal project d =
        .ok { s with external := s.external ++ [⟨project, d⟩] } :=
      demand_bind_ok.mpr ⟨hp, rfl⟩
    rw [List.foldlM_cons, hfirst]
    refine (ih (s := { s with external := s.external ++ [⟨project, d⟩] }) hp).trans ?_
    rw [List.append_assoc]
    rfl

/-- The graph of the files of a project can be stored. -/
theorem replaceGraph_build (h : s.Consistent) (hp : s.hasProject project = true) :
    s.replaceGraph project (DependencyGraph.build (s.indexed project)) =
      .ok (s.withGraph project (DependencyGraph.build (s.indexed project))) := by
  have howner {k : String} (hk : ∃ f ∈ s.indexed project, f.component = some k) :
      s.hasComponent k = true := by
    obtain ⟨f, hmem, hcomp⟩ := hk
    obtain ⟨row, hrow, -, hind⟩ := mem_indexed.mp hmem
    obtain ⟨symbols, -, rfl⟩ := Option.map_eq_some_iff.mp hind
    exact hasComponent_iff.mpr (h.fileComponents row hrow k hcomp)
  have hedges := foldlM_insertEdge (s := s.clearGraph project)
    (DependencyGraph.build (s.indexed project)).edges hp DependencyEdge.nodup_ends_merge
    (fun e he => (ends_of_mem_build he).1)
    (fun e he => ⟨howner (ends_of_mem_build he).2.1, howner (ends_of_mem_build he).2.2⟩)
    (fun e _ row hrow => by
      have hgone := (List.mem_filter.mp hrow).2
      rw [← Bool.not_eq_true, connects_iff]
      intro heq
      injection heq with hproject heq
      injection heq with _ heq
      injection heq with _ hmethod
      simp [hproject, hmethod] at hgone)
  rw [replaceGraph, hedges]
  exact foldlM_insertExternal hp

end Store

open Operation

/-- The rebuilt graph is the one that the files of the project say, and nothing else changes. -/
theorem rebuildGraph_builds {w : World} (h : w.store.Consistent) {project : String}
    (hread : w.store.Legible project) (hp : w.store.hasProject project = true) :
    Succeeds (rebuildGraph project) w fun g w' =>
      g = DependencyGraph.build (w.store.indexed project) ∧
        w' = { w with store := w.store.withGraph project g } :=
  Yields.read_ok (Store.filesOf_of_legible hread)
    (Yields.write_ok (Store.replaceGraph_build h hp) ⟨rfl, rfl⟩)

/-- Rebuilding the graph of a project that is there fails only if its files cannot be read. -/
theorem rebuildGraph_succeeds {w : World} (h : w.store.Consistent) {project : String}
    (hread : w.store.Legible project) (hp : w.store.hasProject project = true) :
    Succeeds (rebuildGraph project) w fun _ w' =>
      w' = { w with
        store := w.store.withGraph project (DependencyGraph.build (w.store.indexed project)) } := by
  refine Yields.imp (rebuildGraph_builds h hread hp) (fun _ hf => hf) ?_
  rintro g w' ⟨rfl, hw'⟩
  exact hw'

end ChangeImpact
