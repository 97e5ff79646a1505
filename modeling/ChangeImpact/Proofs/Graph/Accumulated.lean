import ChangeImpact.Proofs.Graph.Edges
import ChangeImpact.Proofs.Store.Rows

/-!
# What written edges add up to

An edge that is written again keeps its symbols, gets those that are new and takes over the
confidence. So the edges that were written one after the other add up to one edge for each
pair of ends, and which symbols it has does not depend on their order.
-/

namespace ChangeImpact.DependencyEdge

open Store (updateWhere Keyed)

/-- An edge with the symbols of a new one besides its own, and with the confidence of that. -/
def join (old new : DependencyEdge) : DependencyEdge :=
  { old with symbols := Ordered.union new.symbols old.symbols, confidence := new.confidence }

@[simp] theorem ends_join (old new : DependencyEdge) : (old.join new).ends = old.ends := rfl

/-- An edge has the symbols of all edges that were written, the confidence of the last and the
kind of the first. -/
structure SumOf (written : List DependencyEdge) (e : DependencyEdge) : Prop where
  symbols : ∀ name, name ∈ e.symbols ↔ ∃ d ∈ written, name ∈ d.symbols
  ascends : (∀ d ∈ written, d.symbols.Pairwise (· < ·)) → e.symbols.Pairwise (· < ·)
  confidence : written.getLast?.map (·.confidence) = some e.confidence
  dependencyType : written.head?.map (·.dependencyType) = some e.dependencyType
  /-- What was written once is as it was written. -/
  once : ∀ d, written = [d] → e = d

variable {written es es' : List DependencyEdge} {e old : DependencyEdge} {k : Ends}

private theorem exists_concat {p : DependencyEdge → Prop} :
    (∃ d ∈ written ++ [e], p d) ↔ (∃ d ∈ written, p d) ∨ p e := by
  simp only [List.mem_append, List.mem_singleton, or_and_right, exists_or, exists_eq_left]

theorem sumOf_singleton (e : DependencyEdge) : SumOf [e] e where
  symbols := by simp
  ascends := fun h => h e List.mem_cons_self
  confidence := rfl
  dependencyType := rfl
  once := fun _ hd => List.head_eq_of_cons_eq hd

/-- Nothing is no edge. -/
theorem SumOf.ne_nil (h : SumOf written e) : written ≠ [] := by
  rintro rfl
  cases h.confidence

/-- An edge that is written again has the sum of both. -/
theorem SumOf.join (h : SumOf written old) (new : DependencyEdge) :
    SumOf (written ++ [new]) (old.join new) where
  symbols := fun name => by
    have hmem : name ∈ (old.join new).symbols ↔ name ∈ new.symbols ∨ name ∈ old.symbols :=
      Ordered.mem_union
    rw [hmem, h.symbols, exists_concat, or_comm]
  ascends := fun hw =>
    Ordered.pairwise_union (h.ascends fun d hd => hw d (List.mem_append_left _ hd))
  confidence := by
    rw [List.getLast?_concat]
    rfl
  dependencyType := by
    rw [List.head?_append_of_ne_nil _ h.ne_nil]
    exact h.dependencyType
  once := fun d hd => by
    have hnil : written = [] := List.append_inj_left' (hd.trans (List.nil_append _).symm) rfl
    exact absurd hnil h.ne_nil

/-- A list has one edge for each pair of ends among the edges that were written, which is the
sum of those of the pair. -/
structure Accumulates (written es : List DependencyEdge) : Prop where
  nodup : (es.map ends).Nodup
  ends : ∀ k, k ∈ es.map ends ↔ ∃ d ∈ written, d.ends = k
  sums : ∀ e ∈ es, SumOf (written.filter (·.ends = e.ends)) e

theorem accumulates_nil : Accumulates [] [] where
  nodup := List.nodup_nil
  ends := by simp
  sums := fun _ he => absurd he List.not_mem_nil

/-- Edges with different ends add up to themselves. -/
theorem accumulates_self (h : (es.map ends).Nodup) : Accumulates es es where
  nodup := h
  ends := fun _ => List.mem_map
  sums := fun e he => by
    have hone : es.filter (·.ends = e.ends) = [e] := Keyed.filter_eq_singleton h he
    rw [hone]
    exact sumOf_singleton e

/-- The edges of a pair of ends, when one more is written. -/
private theorem filter_concat (written : List DependencyEdge) (e : DependencyEdge) (k : Ends) :
    (written ++ [e]).filter (·.ends = k) =
      written.filter (·.ends = k) ++ if e.ends = k then [e] else [] := by
  rw [List.filter_append, List.filter_singleton]
  by_cases hk : e.ends = k
  · simp [hk]
  · simp [hk]

/-- The first edge of a pair of ends comes to the others. -/
theorem Accumulates.insert (h : Accumulates written es)
    (hnew : e.ends ∉ es.map DependencyEdge.ends) :
    Accumulates (written ++ [e]) (es ++ [e]) where
  nodup := Keyed.append h.nodup fun _ hd heq => hnew (heq ▸ List.mem_map_of_mem hd)
  ends := fun k => by
    rw [List.map_append, List.mem_append, h.ends, exists_concat, List.map_singleton,
      List.mem_singleton, eq_comm (a := k)]
  sums := fun d hd => by
    rw [filter_concat]
    rcases List.mem_append.mp hd with hd | hd
    · have hne : e.ends ≠ d.ends := fun heq => hnew (heq ▸ List.mem_map_of_mem hd)
      rw [if_neg hne, List.append_nil]
      exact h.sums d hd
    · have hnone : written.filter (·.ends = e.ends) = [] := by
        refine List.filter_eq_nil_iff.mpr fun d hd hk => hnew ?_
        exact (h.ends e.ends).mpr ⟨d, hd, of_decide_eq_true hk⟩
      rw [List.mem_singleton.mp hd, hnone, if_pos rfl, List.nil_append]
      exact sumOf_singleton e

/-- A further edge of a pair of ends is joined to the one that is there. -/
theorem Accumulates.update (h : Accumulates written es)
    (hold : e.ends ∈ es.map DependencyEdge.ends) :
    Accumulates (written ++ [e]) (updateWhere (·.ends = e.ends) (·.join e) es) := by
  have hends : (updateWhere (·.ends = e.ends) (·.join e) es).map DependencyEdge.ends =
      es.map DependencyEdge.ends :=
    Store.map_updateWhere (fun d _ => ends_join d e) es
  refine ⟨hends ▸ h.nodup, fun k => ?_, fun d hd => ?_⟩
  · rw [hends, h.ends, exists_concat]
    refine ⟨Or.inl, fun hk => hk.elim id fun hk => ?_⟩
    exact (h.ends k).mp (hk ▸ hold)
  · obtain ⟨c, hc, rfl⟩ := Store.mem_updateWhere.mp hd
    rw [filter_concat]
    by_cases hk : c.ends = e.ends
    · rw [if_pos (decide_eq_true hk), ends_join, if_pos hk.symm]
      exact (h.sums c hc).join e
    · rw [if_neg (by simpa using hk), if_neg (Ne.symm hk), List.append_nil]
      exact h.sums c hc

end ChangeImpact.DependencyEdge
