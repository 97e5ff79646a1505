import ChangeImpact.Proofs.Graph.Edges

/-!
# Merging edges

Merging takes the union of the symbols for each pair of ends, and what it gives depends on
nothing else: neither on the order of the edges nor on whether some of them were merged before.
-/

namespace ChangeImpact.DependencyEdge

variable {xs ys merged merged' : List DependencyEdge}

/-- A list has one edge of the parser for each pair of ends that occurs in another list, with
the symbols of all edges of that pair. -/
structure Unites (es merged : List DependencyEdge) : Prop where
  /-- The pairs of ends are those that occur, each once, strictly ascending. -/
  ends : Ordered.Enumerates (merged.map ends) fun k => ∃ e ∈ es, e.ends = k
  /-- The symbols are those of all edges of the pair, each once, strictly ascending. -/
  symbols : ∀ e ∈ merged, Ordered.Enumerates e.symbols fun name =>
    ∃ d ∈ es, d.ends = e.ends ∧ name ∈ d.symbols
  /-- The edges are found by the parser, which is certain of them. -/
  parsed : ∀ e ∈ merged, e.method = .parser ∧ e.confidence = 1.0 ∧ e.dependencyType = "import"

/-- Merged edges are as the parser makes them. -/
theorem parsed_of_mem_merge {e : DependencyEdge} (h : e ∈ merge xs) :
    e.method = .parser ∧ e.confidence = 1.0 ∧ e.dependencyType = "import" := by
  obtain ⟨entry, -, rfl⟩ := List.mem_map.mp h
  exact ⟨rfl, rfl, rfl⟩

theorem unites_merge (xs : List DependencyEdge) : Unites xs (merge xs) where
  ends := ⟨pairwise_ends_merge, fun _ => mem_map_ends_merge⟩
  symbols := fun _ he => ⟨pairwise_symbols_merge he, fun _ => mem_symbols_merge he⟩
  parsed := fun _ => parsed_of_mem_merge

/-- Edges of the parser with the same ends and symbols are the same. -/
theorem eq_of_parsed {e d : DependencyEdge}
    (he : e.method = .parser ∧ e.confidence = 1.0 ∧ e.dependencyType = "import")
    (hd : d.method = .parser ∧ d.confidence = 1.0 ∧ d.dependencyType = "import")
    (hends : e.ends = d.ends) (hsymbols : e.symbols = d.symbols) : e = d := by
  obtain ⟨hmethod, hconfidence, htype⟩ := he
  obtain ⟨hmethod', hconfidence', htype'⟩ := hd
  obtain ⟨hsource, htarget⟩ := Ends.mk.inj hends
  cases e
  cases d
  cases hsource
  cases htarget
  cases hsymbols
  cases hmethod.trans hmethod'.symm
  cases hconfidence.trans hconfidence'.symm
  cases htype.trans htype'.symm
  rfl

/-- Edges with the same ends have the same symbols when the same ones occur with these ends. -/
theorem Unites.eq_of_ends_eq (h : Unites xs merged) (h' : Unites ys merged')
    (hsymbols : ∀ k name, (∃ e ∈ xs, e.ends = k ∧ name ∈ e.symbols) ↔
      ∃ e ∈ ys, e.ends = k ∧ name ∈ e.symbols)
    {e d : DependencyEdge} (he : e ∈ merged) (hd : d ∈ merged') (hends : e.ends = d.ends) :
    e = d := by
  refine eq_of_parsed (h.parsed e he) (h'.parsed d hd) hends ?_
  refine (h.symbols e he).eq (h'.symbols d hd) fun name => ?_
  rw [hends]
  exact hsymbols d.ends name

/-- The pairs of ends and the symbols of each pair determine the merged edges. -/
theorem Unites.eq (h : Unites xs merged) (h' : Unites ys merged')
    (hends : ∀ k, (∃ e ∈ xs, e.ends = k) ↔ ∃ e ∈ ys, e.ends = k)
    (hsymbols : ∀ k name, (∃ e ∈ xs, e.ends = k ∧ name ∈ e.symbols) ↔
      ∃ e ∈ ys, e.ends = k ∧ name ∈ e.symbols) : merged = merged' := by
  have hmap : merged.map DependencyEdge.ends = merged'.map DependencyEdge.ends :=
    h.ends.eq h'.ends hends
  have : Std.Asymm (fun a b : DependencyEdge => a.ends < b.ends) :=
    ⟨fun _ _ hab hba => asymm_of (· < ·) hab hba⟩
  refine (List.pairwise_map.mp h.ends.ascends).eq_of_mem_iff
    (List.pairwise_map.mp h'.ends.ascends) fun e => ⟨fun he => ?_, fun he => ?_⟩
  · obtain ⟨d, hd, hde⟩ := List.mem_map.mp (hmap ▸ List.mem_map_of_mem he)
    rwa [h.eq_of_ends_eq h' hsymbols he hd hde.symm]
  · obtain ⟨d, hd, hde⟩ := List.mem_map.mp (hmap ▸ List.mem_map_of_mem he)
    rwa [← h.eq_of_ends_eq h' hsymbols hd he hde]

/-- The pairs of ends that occur are those of the merged edges. -/
theorem exists_ends_merge {k : Ends} : (∃ e ∈ merge xs, e.ends = k) ↔ ∃ e ∈ xs, e.ends = k :=
  List.mem_map.symm.trans mem_map_ends_merge

/-- The symbols that occur with a pair of ends are those of the merged edge. -/
theorem exists_symbols_merge {k : Ends} {name : String} :
    (∃ e ∈ merge xs, e.ends = k ∧ name ∈ e.symbols) ↔
      ∃ e ∈ xs, e.ends = k ∧ name ∈ e.symbols := by
  constructor
  · rintro ⟨e, he, rfl, hname⟩
    exact (mem_symbols_merge he).mp hname
  · rintro ⟨d, hd, rfl, hname⟩
    obtain ⟨e, he, hends⟩ := exists_ends_merge.mpr ⟨d, hd, rfl⟩
    exact ⟨e, he, hends, (mem_symbols_merge he).mpr ⟨d, hd, hends.symm, hname⟩⟩

/-- Merging some of the edges first changes nothing. -/
theorem merge_merge_append (xs ys : List DependencyEdge) :
    merge (merge xs ++ ys) = merge (xs ++ ys) := by
  refine (unites_merge _).eq (unites_merge _) (fun k => ?_) fun k name => ?_
  · simp only [List.mem_append, or_and_right, exists_or, exists_ends_merge]
  · simp only [List.mem_append, or_and_right, exists_or, exists_symbols_merge]

/-- Merging depends on the edges, not on their order. -/
theorem merge_congr (h : ∀ e, e ∈ xs ↔ e ∈ ys) : merge xs = merge ys :=
  (unites_merge _).eq (unites_merge _) (fun k => by simp only [h]) fun k name => by simp only [h]

/-- Merging gives one edge of the parser for each pair of ends that occurs, ascending, with the
symbols of all edges of the pair. It is the same for every order of the edges, and merging some
of the edges, or all of them, before changes nothing. -/
theorem merge_unites (xs : List DependencyEdge) :
    Unites xs (merge xs) ∧
      (∀ ys, xs.Perm ys → merge ys = merge xs) ∧
      merge (merge xs) = merge xs ∧
      ∀ ys, merge (xs ++ ys) = merge (merge xs ++ ys) := by
  refine ⟨unites_merge xs, fun ys hperm => merge_congr fun e => hperm.mem_iff.symm, ?_,
    fun ys => (merge_merge_append xs ys).symm⟩
  have hnil := merge_merge_append xs []
  rwa [List.append_nil, List.append_nil] at hnil

/-- Two edges of one pair, found apart from each other, and one of another pair. -/
theorem sample_merge_unites :
    let first : DependencyEdge := { source := "b", target := "a", symbols := ["f", "g"] }
    let second : DependencyEdge :=
      { source := "b", target := "a", method := .llm, confidence := 0.5, symbols := ["e", "g"] }
    let other : DependencyEdge := { source := "a", target := "b" }
    let merged : List DependencyEdge := [other, { first with symbols := ["e", "f", "g"] }]
    Unites [first, other, second] merged ∧ merge [first, other, second] = merged ∧
      merge [second, first, other] = merged ∧ merge (merge [first, other] ++ [second]) = merged := by
  intro first second other merged
  have hmerge : merge [first, other, second] = merged := by decide +kernel
  obtain ⟨hunites, hperm, -, -⟩ := merge_unites [first, other, second]
  refine ⟨hmerge ▸ hunites, hmerge, ?_, ?_⟩
  · rw [hperm [second, first, other] (by decide +kernel), hmerge]
  · exact ((merge_unites [first, other]).2.2.2 [second]).symm.trans hmerge

end ChangeImpact.DependencyEdge
