import ChangeImpact.Graph.Build
import ChangeImpact.Proofs.Graph.Index

/-!
# The edges of a graph

An edge of the merged graph has the ends of an edge of an import, and the other
way round. The merged edges have pairwise different ends, and the two ends of an
edge differ and own files.
-/

namespace ChangeImpact

instance : IsStrictTotalOrder Ends (· < ·) where
  trichotomous a b := by
    intro hab hba
    rcases lt_trichotomy a.source b.source with h | h | h
    · exact absurd (Or.inl h) hab
    · rcases lt_trichotomy a.target b.target with ht | ht | ht
      · exact absurd (Or.inr ⟨h, ht⟩) hab
      · have he : (⟨a.source, a.target⟩ : Ends) = ⟨b.source, b.target⟩ := by rw [h, ht]
        exact he
      · exact absurd (Or.inr ⟨h.symm, ht⟩) hba
    · exact absurd (Or.inl h) hba
  irrefl a := by
    rintro (h | ⟨-, h⟩)
    · exact lt_irrefl _ h
    · exact lt_irrefl _ h
  trans a b c := by
    rintro (hab | ⟨he, hab⟩) (hbc | ⟨he', hbc⟩)
    · exact Or.inl (lt_trans hab hbc)
    · exact Or.inl (he' ▸ hab)
    · exact Or.inl (he ▸ hbc)
    · exact Or.inr ⟨he.trans he', lt_trans hab hbc⟩

namespace DependencyEdge

variable {es : List DependencyEdge} {k : Ends}

private theorem mem_keys_collect {merged : List (Ends × List String)} :
    k ∈ (es.foldl collect merged).map (·.1) ↔ (∃ e ∈ es, e.ends = k) ∨ k ∈ merged.map (·.1) := by
  induction es generalizing merged with
  | nil => simp
  | cons e es ih =>
    rw [List.foldl_cons, ih, collect, Ordered.mem_keys_alter, List.exists_mem_cons_iff,
      eq_comm (a := k), ← or_assoc, or_comm (b := e.ends = k)]

private theorem pairwise_keys_collect {merged : List (Ends × List String)}
    (h : (merged.map (·.1)).Pairwise (· < ·)) :
    ((es.foldl collect merged).map (·.1)).Pairwise (· < ·) := by
  induction es generalizing merged with
  | nil => exact h
  | cons e es ih => exact ih (Ordered.pairwise_keys_alter h)

theorem map_ends_merge : (merge es).map ends = (es.foldl collect []).map (·.1) := by
  rw [merge, List.map_map]
  rfl

/-- Merging keeps the pairs of ends. -/
theorem mem_map_ends_merge : k ∈ (merge es).map ends ↔ ∃ e ∈ es, e.ends = k := by
  rw [map_ends_merge, mem_keys_collect]
  exact or_iff_left List.not_mem_nil

/-- The merged edges ascend by their ends. -/
theorem pairwise_ends_merge : ((merge es).map ends).Pairwise (· < ·) := by
  rw [map_ends_merge]
  exact pairwise_keys_collect List.Pairwise.nil

/-- There is one merged edge per pair of ends. -/
theorem nodup_ends_merge : ((merge es).map ends).Nodup :=
  pairwise_ends_merge.imp fun hxy => ne_of_irrefl hxy

private theorem mem_symbols_collect {merged : List (Ends × List String)}
    (h : (merged.map (·.1)).Pairwise (· < ·)) {name : String} :
    name ∈ (Ordered.find? k (es.foldl collect merged)).getD [] ↔
      (∃ e ∈ es, e.ends = k ∧ name ∈ e.symbols) ∨ name ∈ (Ordered.find? k merged).getD [] := by
  induction es generalizing merged with
  | nil => simp
  | cons e es ih =>
    have hone : name ∈ (Ordered.find? k (collect merged e)).getD [] ↔
        (e.ends = k ∧ name ∈ e.symbols) ∨ name ∈ (Ordered.find? k merged).getD [] := by
      rw [collect, Ordered.find?_alter h]
      by_cases hk : k = e.ends
      · simp [hk]
      · simp [hk, Ne.symm hk]
    have hsorted : ((collect merged e).map (·.1)).Pairwise (· < ·) := Ordered.pairwise_keys_alter h
    rw [List.foldl_cons, ih hsorted, hone, List.exists_mem_cons_iff, ← or_assoc,
      or_comm (b := e.ends = k ∧ name ∈ e.symbols)]

/-- A merged edge has the symbols of all edges with its ends. -/
theorem mem_symbols_merge {e : DependencyEdge} (h : e ∈ merge es) {name : String} :
    name ∈ e.symbols ↔ ∃ d ∈ es, d.ends = e.ends ∧ name ∈ d.symbols := by
  obtain ⟨⟨k, symbols⟩, hk, rfl⟩ := List.mem_map.mp h
  have hfind := Ordered.find?_eq_some_of_mem (pairwise_keys_collect List.Pairwise.nil) hk
  have hmem : name ∈ (Ordered.find? k (es.foldl collect [])).getD [] ↔
      (∃ d ∈ es, d.ends = k ∧ name ∈ d.symbols) ∨ name ∈ (Ordered.find? k []).getD [] :=
    mem_symbols_collect List.Pairwise.nil
  rw [hfind] at hmem
  exact hmem.trans (or_iff_left List.not_mem_nil)

/-- The symbols of a merged edge ascend. -/
theorem pairwise_symbols_merge {e : DependencyEdge} (h : e ∈ merge es) :
    e.symbols.Pairwise (· < ·) := by
  have hfold {merged : List (Ends × List String)} (hm : ∀ x ∈ merged, x.2.Pairwise (· < ·)) :
      ∀ x ∈ es.foldl collect merged, x.2.Pairwise (· < ·) := by
    clear h
    induction es generalizing merged with
    | nil => exact hm
    | cons d es ih =>
      refine ih fun x hx => ?_
      rcases Ordered.mem_alter hx with hx | ⟨old, rfl, hold⟩
      · exact hm x hx
      · refine Ordered.pairwise_union ?_
        cases old with
        | none => exact List.Pairwise.nil
        | some symbols => exact hm _ (hold symbols rfl)
  obtain ⟨entry, hentry, rfl⟩ := List.mem_map.mp h
  exact hfold (fun _ hx => absurd hx List.not_mem_nil) entry hentry

/-- Merged edges are edges of the parser. -/
theorem method_of_mem_merge {e : DependencyEdge} (h : e ∈ merge es) : e.method = .parser := by
  obtain ⟨entry, -, rfl⟩ := List.mem_map.mp h
  rfl

end DependencyEdge

variable {index : ExportIndex} {files : List IndexedFile} {f : IndexedFile} {i : Import}

/-- The names that an import is known to use are exported by the file. -/
theorem mem_confirmedSymbols {target : ParsedFile} {name : String} :
    name ∈ confirmedSymbols i target ↔
      (i.isDefault = true ∧ ∃ x ∈ target.exports, x.kind = .default ∧ x.name = name) ∨
        (name ∈ i.symbols ∧ ∃ x ∈ target.exports, x.name = name) := by
  rw [confirmedSymbols, Ordered.mem_union, Ordered.mem_ofList, List.mem_filter, List.any_eq_true]
  refine or_congr ?_ (by simp)
  cases i.isDefault with
  | false => simp
  | true => simp [and_assoc]

theorem exported_of_mem_confirmedSymbols {target : ParsedFile} {name : String}
    (h : name ∈ confirmedSymbols i target) : ∃ x ∈ target.exports, x.name = name := by
  rcases mem_confirmedSymbols.mp h with ⟨-, x, hx, -, hname⟩ | ⟨-, hx⟩
  · exact ⟨x, hx, hname⟩
  · exact hx

/-- An import has symbols on its edge when it binds everything or a name that is exported. -/
theorem edgeSymbols_isSome_iff {target : ParsedFile} :
    (edgeSymbols i target).isSome = true ↔
      i.bindsEverything = true ∨ ∃ name, name ∈ confirmedSymbols i target := by
  rw [edgeSymbols]
  by_cases hb : i.bindsEverything = true
  · simp [hb]
  · rw [if_neg hb]
    cases hc : confirmedSymbols i target with
    | nil => simp [hb]
    | cons name names => simp

/-- The names on the edge of an import are those it is known to use, unless it binds
everything. -/
theorem mem_edgeSymbols {target : ParsedFile} {name : String} :
    (∃ symbols, edgeSymbols i target = some symbols ∧ name ∈ symbols) ↔
      i.bindsEverything = false ∧ name ∈ confirmedSymbols i target := by
  rw [edgeSymbols]
  by_cases hb : i.bindsEverything = true
  · simp [hb]
  · rw [if_neg hb]
    cases hc : confirmedSymbols i target with
    | nil => simp
    | cons first names => simp [hb]

/-- An import makes an edge when its file and the file it means belong to different components
and there are symbols for the edge. -/
theorem edgeOf_eq_some_iff {e : DependencyEdge} :
    edgeOf index f i = some e ↔
      f.component = some e.source ∧ e.target ≠ e.source ∧ i.isRelative = true ∧
        ∃ g, index.target? f.path i = some g ∧ g.component = some e.target ∧
          ∃ symbols, edgeSymbols i g.parsed = some symbols ∧
            e = { source := e.source, target := e.target, symbols } := by
  constructor
  · intro he
    by_cases hrel : i.isRelative = true
    · simp only [edgeOf, hrel, if_true, Option.bind_eq_bind, Option.bind_eq_some_iff] at he
      obtain ⟨source, hs, g, hg, target, ht, he⟩ := he
      by_cases hne : target = source
      · rw [if_pos hne] at he
        cases he
      · rw [if_neg hne] at he
        obtain ⟨symbols, hsym, rfl⟩ := Option.map_eq_some_iff.mp he
        exact ⟨hs, hne, hrel, g, hg, ht, symbols, hsym, rfl⟩
    · simp [edgeOf, hrel] at he
  · rintro ⟨hs, hne, hrel, g, hg, ht, symbols, hsym, he⟩
    rw [he]
    simp only [edgeOf, hs, hrel, hg, ht, hsym, hne, Option.bind_eq_bind, Option.bind_some, if_true,
      if_false, Option.map_some]

/-- The ends of the edge that an import of a file makes. -/
theorem edgeOf_ends_iff {source target : String} :
    (∃ e, edgeOf index f i = some e ∧ e.ends = ⟨source, target⟩) ↔
      f.component = some source ∧ target ≠ source ∧ i.isRelative = true ∧
        ∃ g, index.target? f.path i = some g ∧ g.component = some target ∧
          (edgeSymbols i g.parsed).isSome = true := by
  constructor
  · rintro ⟨e, he, hends⟩
    obtain ⟨rfl, rfl⟩ := Ends.mk.inj hends
    obtain ⟨hs, hne, hrel, g, hg, ht, symbols, hsym, -⟩ := edgeOf_eq_some_iff.mp he
    exact ⟨hs, hne, hrel, g, hg, ht, Option.isSome_iff_exists.mpr ⟨symbols, hsym⟩⟩
  · rintro ⟨hs, hne, hrel, g, hg, ht, hsym⟩
    obtain ⟨symbols, hsym⟩ := Option.isSome_iff_exists.mp hsym
    exact ⟨{ source, target, symbols },
      edgeOf_eq_some_iff.mpr ⟨hs, hne, hrel, g, hg, ht, symbols, hsym, rfl⟩, rfl⟩

theorem mem_resolveEdges {e : DependencyEdge} :
    e ∈ (resolveEdges index).edges ↔
      ∃ f ∈ index.toList, ∃ i ∈ f.parsed.imports, edgeOf index f i = some e := by
  simp only [resolveEdges, List.mem_flatMap, List.mem_filterMap]

/-- The graph connects two components exactly when a file of the one imports a file of the
other in a way that has symbols on its edge. -/
theorem mem_ends_build {source target : String} :
    ⟨source, target⟩ ∈ (DependencyGraph.build files).edges.map (·.ends) ↔
      target ≠ source ∧ (ExportIndex.build files).Imports source target fun i g =>
        (edgeSymbols i g).isSome = true := by
  rw [DependencyGraph.build, DependencyEdge.mem_map_ends_merge]
  simp only [mem_resolveEdges]
  constructor
  · rintro ⟨e, ⟨f, hf, i, hi, he⟩, hends⟩
    obtain ⟨hs, hne, hrel, hg⟩ := edgeOf_ends_iff.mp ⟨e, he, hends⟩
    exact ⟨hne, f, hf, hs, i, hi, hrel, hg⟩
  · rintro ⟨hne, f, hf, hs, i, hi, hrel, hg⟩
    obtain ⟨e, he, hends⟩ := edgeOf_ends_iff.mpr ⟨hs, hne, hrel, hg⟩
    exact ⟨e, ⟨f, hf, i, hi, he⟩, hends⟩

/-- The symbols of an edge are the names that the imports behind it are known to use. Imports
that bind everything, by a wildcard or without naming anything, add none. -/
theorem mem_symbols_build {e : DependencyEdge} (h : e ∈ (DependencyGraph.build files).edges)
    {name : String} :
    name ∈ e.symbols ↔ (ExportIndex.build files).Imports e.source e.target fun i g =>
      i.bindsEverything = false ∧ name ∈ confirmedSymbols i g := by
  have hne := (mem_ends_build.mp (List.mem_map_of_mem (f := DependencyEdge.ends) h)).1
  rw [DependencyEdge.mem_symbols_merge h]
  simp only [mem_resolveEdges]
  constructor
  · rintro ⟨d, ⟨f, hf, i, hi, hd⟩, hends, hname⟩
    obtain ⟨hs, -, hrel, g, hg, ht, symbols, hsym, heq⟩ := edgeOf_eq_some_iff.mp hd
    obtain ⟨hsource, htarget⟩ := Ends.mk.inj hends
    rw [heq] at hname
    exact ⟨f, hf, hsource ▸ hs, i, hi, hrel, g, hg, htarget ▸ ht,
      mem_edgeSymbols.mp ⟨symbols, hsym, hname⟩⟩
  · rintro ⟨f, hf, hs, i, hi, hrel, g, hg, ht, hname⟩
    obtain ⟨symbols, hsym, hname⟩ := mem_edgeSymbols.mpr hname
    exact ⟨{ source := e.source, target := e.target, symbols },
      ⟨f, hf, i, hi, edgeOf_eq_some_iff.mpr ⟨hs, hne, hrel, g, hg, ht, symbols, hsym, rfl⟩⟩,
      rfl, hname⟩

/-- The ends of an edge differ, and each of them owns a file. -/
theorem ends_of_mem_build {e : DependencyEdge} (h : e ∈ (DependencyGraph.build files).edges) :
    e.source ≠ e.target ∧ (∃ f ∈ files, f.component = some e.source) ∧
      ∃ f ∈ files, f.component = some e.target := by
  obtain ⟨hne, f, hf, hs, i, -, -, g, hg, ht, -⟩ :=
    mem_ends_build.mp (List.mem_map_of_mem (f := DependencyEdge.ends) h)
  obtain ⟨path, -, hg⟩ := Option.bind_eq_some_iff.mp hg
  exact ⟨hne.symm, ⟨f, ExportIndex.mem_of_mem_toList_build hf, hs⟩,
    ⟨g, (ExportIndex.mem_of_get?_build hg).1, ht⟩⟩

end ChangeImpact
