import ChangeImpact.Proofs.Graph.Exact
import ChangeImpact.Proofs.Propagation

/-!
# A total change reaches every dependent

The graph and the propagation of changes look at imports separately: an edge
comes from the names that are exported, a reached component from the names that
changed. When everything that a component exports changes the two agree, and no
change reaches more than the graph knows.
-/

namespace ChangeImpact

/-- The components with an edge into a component, in the order of the edges. -/
def DependencyGraph.dependents (graph : DependencyGraph) (component : String) : List String :=
  (graph.edges.filter (·.target = component)).map (·.source)

namespace DependencyGraph

variable {files : List IndexedFile} {component c : String}

theorem mem_dependents {graph : DependencyGraph} :
    c ∈ graph.dependents component ↔ ⟨c, component⟩ ∈ graph.edges.map (·.ends) := by
  simp only [dependents, List.mem_map, List.mem_filter, decide_eq_true_eq, and_assoc]
  refine exists_congr fun e => and_congr_right fun _ => ?_
  rw [DependencyEdge.ends, Ends.mk.injEq, and_comm]

/-- Edges into one component that ascend by their ends ascend by their sources. -/
theorem pairwise_dependents {graph : DependencyGraph}
    (h : (graph.edges.map (·.ends)).Pairwise (· < ·)) :
    (graph.dependents component).Pairwise (· < ·) := by
  rw [dependents, List.pairwise_map, List.pairwise_filter]
  refine (List.pairwise_map.mp h).imp fun {a b} hab ha hb => ?_
  rw [decide_eq_true_eq] at ha hb
  rcases hab with hlt | ⟨-, hlt⟩
  · exact hlt
  · exact absurd ((show a.target < b.target from hlt).trans_eq (hb.trans ha.symm)) (lt_irrefl _)

end DependencyGraph

/-- When all exports of a file change, every import of the file that has symbols on its edge is
touched. -/
theorem Import.touchedBy_of_isSome {i : Import} {target : ParsedFile} {names : String → Prop}
    {content : Prop} (hedge : (edgeSymbols i target).isSome = true)
    (hall : ∀ x ∈ target.exports, names x.name) (hsome : (∃ name, names name) ∨ content) :
    i.TouchedBy target names content := by
  cases hb : i.bindsEverything with
  | true => exact Or.inl ⟨hb, hsome⟩
  | false =>
    rcases edgeSymbols_isSome_iff.mp hedge with hall' | ⟨name, hname⟩
    · rw [hb] at hall'
      cases hall'
    · obtain ⟨x, hx, rfl⟩ := exported_of_mem_confirmedSymbols hname
      exact Or.inr ⟨hb, x.name, hall x hx, Or.inr hname⟩

/-- What a change reaches is among the dependents in the graph, without the changed component
itself; when all its exports change, and so at least something does, all dependents are reached,
each once and in order. -/
theorem reachedBy_build (files : List IndexedFile) (component : String) (changed : List String)
    (contentChanged : Bool) :
    let graph := DependencyGraph.build files
    let index := ExportIndex.build files
    let reached := reachedBy component changed contentChanged graph.edges index
    reached ⊆ graph.dependents component ∧ component ∉ reached ∧ reached.Pairwise (· < ·) ∧
      ((∀ f ∈ index.toList, f.component = some component →
          ∀ x ∈ f.parsed.exports, x.name ∈ changed) →
        changed ≠ [] ∨ contentChanged = true →
        reached = graph.dependents component) := by
  intro graph index reached
  have hsub : reached ⊆ graph.dependents component := fun c hc => by
    obtain ⟨⟨-, e, he, hsource, htarget⟩, -⟩ := mem_reachedBy.mp hc
    rw [DependencyGraph.mem_dependents, ← hsource, ← htarget]
    exact List.mem_map_of_mem he
  have hself : component ∉ reached := fun hc => (mem_reachedBy.mp hc).1.1 rfl
  refine ⟨hsub, hself, pairwise_reachedBy, fun hall hsome => ?_⟩
  refine List.Pairwise.eq_of_mem_iff pairwise_reachedBy
    (DependencyGraph.pairwise_dependents DependencyEdge.pairwise_ends_merge)
    fun c => ⟨fun hc => hsub hc, fun hc => ?_⟩
  rw [DependencyGraph.mem_dependents] at hc
  obtain ⟨hne, f, hf, hs, i, hi, hrel, g, hg, ht, hedge⟩ := mem_ends_build.mp hc
  obtain ⟨e, he, hends⟩ := List.mem_map.mp hc
  obtain ⟨hsource, htarget⟩ := Ends.mk.inj hends
  obtain ⟨path, -, hget⟩ := Option.bind_eq_some_iff.mp hg
  have htouched : i.TouchedBy g.parsed (· ∈ changed) (contentChanged = true) :=
    Import.touchedBy_of_isSome hedge (hall g (ExportIndex.mem_toList_of_get? hget) ht)
      (hsome.imp_left (List.exists_mem_of_ne_nil changed))
  exact mem_reachedBy.mpr ⟨⟨hne.symm, e, he, hsource, htarget⟩,
    f, hf, hs, i, hi, hrel, g, hg, ht, htouched⟩

/-- A change of all that the core exports reaches the cart. -/
theorem sample_reachedBy_build :
    reachedBy "core" ["price", "rate"] false (DependencyGraph.build sampleIndexed).edges
        (ExportIndex.build sampleIndexed) =
      (DependencyGraph.build sampleIndexed).dependents "core" ∧
    (DependencyGraph.build sampleIndexed).dependents "core" = ["cart"] :=
  ⟨(reachedBy_build sampleIndexed "core" ["price", "rate"] false).2.2.2
    (by decide +kernel) (by decide), by decide +kernel⟩

end ChangeImpact
