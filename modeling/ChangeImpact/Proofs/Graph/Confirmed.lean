import ChangeImpact.Proofs.Propagation

/-!
# Names that are known to be used

An import that leads from a file of one component to a file of another, and is known to use a name
from it, keeps the two components together: there is an edge between them, before and after edges
are merged, and a change of the name reaches the component that imports.
-/

namespace ChangeImpact

/-- An import of a file of one component means a file of another. -/
structure ExportIndex.Leads (index : ExportIndex) (source target : String) (f : IndexedFile)
    (i : Import) (g : IndexedFile) : Prop where
  distinct : target ≠ source
  mem : f ∈ index.toList
  source : f.component = some source
  imports : i ∈ f.parsed.imports
  isRelative : i.isRelative = true
  means : index.target? f.path i = some g
  target : g.component = some target

/-- An edge leads from one component to another, with a name on it when it needs to. -/
def Joins (edges : List DependencyEdge) (source target : String) (named : Prop) (name : String) :
    Prop :=
  ∃ e ∈ edges, e.ends = ⟨source, target⟩ ∧ (named → name ∈ e.symbols)

/-- A component depends on another through a name that an import is known to use. -/
structure ExportIndex.Depends (index : ExportIndex) (source target : String) (i : Import)
    (name : String) : Prop where
  /-- The import makes an edge, which has the name unless the import binds everything. -/
  edge : Joins (resolveEdges index).edges source target (i.bindsEverything = false) name
  /-- The graph has an edge, which has the name unless the import binds everything. -/
  merged : Joins (DependencyEdge.merge (resolveEdges index).edges) source target
    (i.bindsEverything = false) name
  /-- A change of the name reaches the component that imports. -/
  reached : ∀ changed contentChanged, name ∈ changed → source ∈ reachedBy target changed
    contentChanged (DependencyEdge.merge (resolveEdges index).edges) index

variable {index : ExportIndex} {source target name : String} {f g : IndexedFile} {i : Import}

theorem Import.touchedBy_of_confirmed {parsed : ParsedFile} {names : String → Prop} {content : Prop}
    (hconfirmed : name ∈ confirmedSymbols i parsed) (hname : names name) :
    i.TouchedBy parsed names content := by
  cases hb : i.bindsEverything with
  | true => exact .inl ⟨hb, .inl ⟨name, hname⟩⟩
  | false => exact .inr ⟨hb, name, hname, .inr hconfirmed⟩

namespace ExportIndex

/-- An import that is known to use a name makes an edge. -/
theorem Leads.joins (h : index.Leads source target f i g)
    (hconfirmed : name ∈ confirmedSymbols i g.parsed) :
    Joins (resolveEdges index).edges source target (i.bindsEverything = false) name := by
  have hsome : (edgeSymbols i g.parsed).isSome = true :=
    edgeSymbols_isSome_iff.mpr (.inr ⟨name, hconfirmed⟩)
  obtain ⟨symbols, hsymbols⟩ := Option.isSome_iff_exists.mp hsome
  refine ⟨{ source, target, symbols }, mem_resolveEdges.mpr ⟨f, h.mem, i, h.imports,
    edgeOf_eq_some_iff.mpr ⟨h.source, h.distinct, h.isRelative, g, h.means, h.target, symbols,
      hsymbols, rfl⟩⟩, rfl, fun hnamed => ?_⟩
  obtain ⟨symbols', hsymbols', hname⟩ := mem_edgeSymbols.mpr ⟨hnamed, hconfirmed⟩
  exact Option.some.inj (hsymbols'.symm.trans hsymbols) ▸ hname

end ExportIndex

/-- Merging keeps what joins two components. -/
theorem Joins.merge {edges : List DependencyEdge} {named : Prop}
    (h : Joins edges source target named name) :
    Joins (DependencyEdge.merge edges) source target named name := by
  obtain ⟨e, he, hends, hname⟩ := h
  obtain ⟨k, hk, hkends⟩ := List.mem_map.mp (DependencyEdge.mem_map_ends_merge.mpr ⟨e, he, hends⟩)
  exact ⟨k, hk, hkends, fun hnamed =>
    (DependencyEdge.mem_symbols_merge hk).mpr ⟨e, he, hends.trans hkends.symm, hname hnamed⟩⟩

/-- Through a name that an import is known to use, its component depends on the component that it
leads to. -/
theorem ExportIndex.Leads.depends (h : index.Leads source target f i g)
    (hconfirmed : name ∈ confirmedSymbols i g.parsed) : index.Depends source target i name := by
  have hedge := h.joins hconfirmed
  refine ⟨hedge, hedge.merge, fun changed contentChanged hname => ?_⟩
  obtain ⟨e, he, hends, -⟩ := hedge.merge
  obtain ⟨hsource, htarget⟩ := Ends.mk.inj hends
  exact mem_reachedBy.mpr ⟨⟨h.distinct.symm, e, he, hsource, htarget⟩,
    f, h.mem, h.source, i, h.imports, h.isRelative, g, h.means, h.target,
    Import.touchedBy_of_confirmed hconfirmed hname⟩

end ChangeImpact
