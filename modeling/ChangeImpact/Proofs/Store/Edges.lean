import ChangeImpact.Proofs.Graph.Accumulated
import ChangeImpact.Proofs.Graph.Stored
import ChangeImpact.Proofs.Store.Intact

/-!
# What writing does to the edges of a project

Two writers share the table of edges. One adds an edge to those that were found in the same
way, the other replaces what the parser found as a whole. Neither touches the edges of another
project or those that were found in another way.
-/

namespace ChangeImpact

open DependencyEdge (Accumulates)

namespace Store

variable {s t : Store} {project p : String} {method : DetectionMethod} {e : DependencyEdge}
  {g : DependencyGraph} {written : List DependencyEdge}

/-- Whether a row is an edge of a project that was found in a given way. -/
def isFound (project : String) (method : DetectionMethod) (row : StoredEdge) : Bool :=
  row.project = project && row.edge.method = method

/-- The edges of a project that were found in a given way. -/
def foundBy (s : Store) (project : String) (method : DetectionMethod) : List DependencyEdge :=
  (s.edges.filter (isFound project method)).map (·.edge)

/-- The imports that lead out of a project, in the order in which they were stored. -/
def leadingOut (s : Store) (project : String) : List ExternalDependency :=
  (s.external.filter (·.project = project)).map (·.dependency)

theorem isFound_iff {row : StoredEdge} :
    isFound project method row = true ↔ row.project = project ∧ row.edge.method = method := by
  simp [isFound]

/-- The edges that are read are those that were found in one way or the other. -/
theorem perm_edgesOf (s : Store) (project : String) (method : DetectionMethod) :
    ((s.edgesOf project).filter (·.method = method)).Perm (s.foundBy project method) := by
  have hrows : ((s.edges.filter (·.project = project)).map (·.edge)).filter (·.method = method) =
      s.foundBy project method := by
    rw [foundBy, List.filter_map, List.filter_filter]
    refine congrArg (List.map _) (List.filter_congr fun row _ => ?_)
    exact Bool.and_comm _ _
  exact hrows ▸ (List.mergeSort_perm _ _).filter _

theorem perm_externalOf (s : Store) (project : String) :
    (s.externalOf project).Perm (s.leadingOut project) :=
  List.mergeSort_perm _ _

/-- No two edges of a project have the same ends when they were found in the same way. -/
theorem Intact.nodup_foundBy (h : s.Intact) (project : String) (method : DetectionMethod) :
    ((s.foundBy project method).map DependencyEdge.ends).Nodup := by
  have hkeys : (s.edges.filter (isFound project method)).map
        (fun row => (row.project, row.edge.source, row.edge.target, row.edge.method)) =
      ((s.foundBy project method).map DependencyEdge.ends).map
        fun k => (project, k.source, k.target, method) := by
    rw [foundBy, List.map_map, List.map_map]
    refine List.map_congr_left fun row hrow => ?_
    obtain ⟨hproject, hmethod⟩ := isFound_iff.mp (List.mem_filter.mp hrow).2
    rw [hproject, hmethod]
    rfl
  have hnodup := h.edgeKeys.filter (isFound project method)
  rw [Keyed, hkeys] at hnodup
  exact hnodup.of_map _

/-! ## Adding an edge -/

/-- An edge connects what another one does if it is of the same project, was found in the same
way and has the same ends. -/
theorem connects_iff_isFound {row : StoredEdge} :
    connects project e row = true ↔
      isFound project e.method row = true ∧ row.edge.ends = e.ends := by
  rw [connects_iff, isFound_iff, Prod.mk.injEq, Prod.mk.injEq, Prod.mk.injEq,
    DependencyEdge.ends, DependencyEdge.ends, Ends.mk.injEq]
  tauto

theorem eq_of_insertEdge (h : s.insertEdge project e = .ok t) :
    t = { s with edges := s.edges ++ [⟨project, e⟩] } := by
  obtain ⟨-, h⟩ := demand_bind_ok.mp h
  obtain ⟨-, h⟩ := demand_bind_ok.mp h
  obtain ⟨-, h⟩ := demand_bind_ok.mp h
  cases h
  rfl

/-- An edge is joined to the one with its key, or it is new. -/
theorem upsertEdge_cases (h : s.upsertEdge project e = .ok t) :
    (∃ row ∈ s.edges, connects project e row = true) ∧
        t = { s with
          edges := updateWhere (connects project e)
            (fun row => { row with edge := row.edge.join e }) s.edges } ∨
      (∀ row ∈ s.edges, connects project e row = false) ∧
        t = { s with edges := s.edges ++ [⟨project, e⟩] } := by
  obtain ⟨-, h⟩ := demand_bind_ok.mp h
  split at h
  · cases h
    exact Or.inl ⟨List.any_eq_true.mp ‹_›, rfl⟩
  · refine Or.inr ⟨fun row hrow => ?_, eq_of_insertEdge h⟩
    exact Bool.eq_false_iff.mpr fun hc => ‹¬_› (List.any_eq_true.mpr ⟨row, hrow, hc⟩)

/-- The edges of another project, or that were found in another way, stay as they are. -/
theorem foundBy_upsertEdge_of_ne (h : s.upsertEdge p e = .ok t)
    (hne : ¬(p = project ∧ e.method = method)) :
    t.foundBy project method = s.foundBy project method := by
  rcases upsertEdge_cases h with ⟨-, rfl⟩ | ⟨-, rfl⟩
  · refine congrArg (List.map _) (filter_updateWhere_of_not (fun _ => rfl) fun row _ hrow => ?_)
    refine Bool.eq_false_iff.mpr fun hfound => hne ?_
    obtain ⟨hproject, hmethod⟩ := isFound_iff.mp (connects_iff_isFound.mp hrow).1
    obtain ⟨hproject', hmethod'⟩ := isFound_iff.mp hfound
    exact ⟨hproject.symm.trans hproject', hmethod.symm.trans hmethod'⟩
  · have hnew : [(⟨p, e⟩ : StoredEdge)].filter (isFound project method) = [] :=
      List.filter_eq_nil_iff.mpr fun row hrow hfound => hne (by
        rw [List.mem_singleton.mp hrow] at hfound
        exact isFound_iff.mp hfound)
    rw [foundBy, List.filter_append, hnew, List.append_nil]
    rfl

/-- An edge that is there already is joined where it was found. -/
theorem foundBy_updateWhere_connects (s : Store) (project : String) (e : DependencyEdge) :
    foundBy { s with
        edges := updateWhere (connects project e)
          (fun row => { row with edge := row.edge.join e }) s.edges } project e.method =
      updateWhere (·.ends = e.ends) (·.join e) (s.foundBy project e.method) := by
  have hrows := filter_updateWhere_comm (p := connects project e) (q := isFound project e.method)
    (f := fun row => { row with edge := row.edge.join e }) (fun _ => rfl) s.edges
  refine (congrArg (List.map _) hrows).trans
    (map_updateWhere_comm (fun row hrow => ?_) fun row _ _ => ?_)
  case refine_2 => rfl
  have hfound := (List.mem_filter.mp hrow).2
  rw [Bool.eq_iff_iff, decide_eq_true_iff, connects_iff_isFound, and_iff_right hfound]

/-- An added edge counts for those of its project that are found in its way. -/
theorem accumulates_upsertEdge (ha : Accumulates written (s.foundBy project e.method))
    (h : s.upsertEdge project e = .ok t) :
    Accumulates (written ++ [e]) (t.foundBy project e.method) := by
  rcases upsertEdge_cases h with ⟨⟨row, hrow, hconnects⟩, rfl⟩ | ⟨hfree, rfl⟩
  · obtain ⟨hfound, hends⟩ := connects_iff_isFound.mp hconnects
    rw [foundBy_updateWhere_connects]
    refine ha.update (hends ▸ List.mem_map_of_mem ?_)
    exact List.mem_map_of_mem (List.mem_filter.mpr ⟨hrow, hfound⟩)
  · have hrows : foundBy { s with edges := s.edges ++ [⟨project, e⟩] } project e.method =
        s.foundBy project e.method ++ [e] := by
      have hnew : isFound project e.method ⟨project, e⟩ = true := isFound_iff.mpr ⟨rfl, rfl⟩
      rw [foundBy, List.filter_append, List.map_append, List.filter_singleton, hnew]
      rfl
    rw [hrows]
    refine ha.insert fun hmem => ?_
    obtain ⟨d, hd, hends⟩ := List.mem_map.mp hmem
    obtain ⟨row, hrow, rfl⟩ := List.mem_map.mp hd
    obtain ⟨hrow, hfound⟩ := List.mem_filter.mp hrow
    have hconnects := connects_iff_isFound.mpr ⟨hfound, hends⟩
    rw [hfree row hrow] at hconnects
    cases hconnects

/-- What an edge refers to is there. -/
theorem Consistent.referred (h : s.Consistent) {row : StoredEdge} (hrow : row ∈ s.edges) :
    s.hasProject row.project = true ∧ s.hasComponent row.edge.source = true ∧
      s.hasComponent row.edge.target = true :=
  ⟨hasProject_iff.mpr (h.edgeProjects row hrow _ rfl),
    hasComponent_iff.mpr (h.edgeSources row hrow _ rfl),
    hasComponent_iff.mpr (h.edgeTargets row hrow _ rfl)⟩

/-- An edge can be added exactly when its ends differ and what it refers to is there. -/
theorem Intact.exists_upsertEdge_iff (h : s.Intact) :
    (∃ t, s.upsertEdge project e = .ok t) ↔
      e.source ≠ e.target ∧ s.hasProject project = true ∧ s.hasComponent e.source = true ∧
        s.hasComponent e.target = true := by
  constructor
  · rintro ⟨t, ht⟩
    refine ⟨of_decide_eq_true (demand_bind_ok.mp ht).1, ?_⟩
    have hgrown := h.upsertEdge ht
    rcases upsertEdge_cases ht with ⟨⟨row, hrow, hconnects⟩, -⟩ | ⟨-, rfl⟩
    · have hthere := h.referred hrow
      injection connects_iff.mp hconnects with hproject hends
      injection hends with hsource hends
      injection hends with htarget _
      rwa [hproject, hsource, htarget] at hthere
    · exact hgrown.referred (List.mem_append_right _ (List.mem_singleton_self _))
  · rintro ⟨hne, hp, hsource, htarget⟩
    by_cases hany : s.edges.any (connects project e) = true
    · exact ⟨_, demand_bind_ok.mpr ⟨decide_eq_true hne, if_pos hany⟩⟩
    · have hfree : ∀ row ∈ s.edges, connects project e row = false := fun row hrow =>
        Bool.eq_false_iff.mpr fun hc => hany (List.any_eq_true.mpr ⟨row, hrow, hc⟩)
      exact ⟨_, demand_bind_ok.mpr ⟨decide_eq_true hne,
        (if_neg hany).trans (insertEdge_eq_ok hne hfree hp hsource htarget)⟩⟩

/-! ## Replacing what the parser found -/

theorem eq_of_insertExternal {d : ExternalDependency} (h : s.insertExternal project d = .ok t) :
    t = { s with external := s.external ++ [⟨project, d⟩] } := by
  obtain ⟨-, h⟩ := demand_bind_ok.mp h
  cases h
  rfl

/-- A graph that can be stored is stored as a whole. -/
theorem eq_of_replaceGraph (h : s.replaceGraph project g = .ok t) : t = s.withGraph project g := by
  obtain ⟨u, hu, h⟩ := bind_eq_ok.mp h
  have hedges := eq_of_foldlM Store.edges (fun s edges => { s with edges }) hu
    eq_of_insertEdge (fun _ => rfl) (fun _ _ => rfl) fun _ _ _ => rfl
  have hexternal := eq_of_foldlM Store.external (fun s external => { s with external }) h
    eq_of_insertExternal (fun _ => rfl) (fun _ _ => rfl) fun _ _ _ => rfl
  rw [hexternal, hedges]
  rfl

theorem foundBy_withGraph (s : Store) (project : String) (g : DependencyGraph) :
    (s.withGraph project g).foundBy project .parser = g.parsedEdges :=
  map_edge_withGraph g

/-- The edges of another project, or that were found in another way, stay as they are. -/
theorem foundBy_withGraph_of_ne (hne : ¬(p = project ∧ method = .parser)) :
    (s.withGraph p g).foundBy project method = s.foundBy project method := by
  have hkept (row : StoredEdge) : isFound project method row =
      (isFound project method row && !isParsed p row) := by
    cases hparsed : isParsed p row with
    | false => exact (Bool.and_true _).symm
    | true =>
      refine (Bool.eq_false_iff.mpr fun hfound => hne ?_).trans (Bool.and_false _).symm
      obtain ⟨hproject, hmethod⟩ := isFound_iff.mp hfound
      obtain ⟨hproject', hmethod'⟩ : row.project = p ∧ row.edge.method = .parser :=
        isFound_iff.mp hparsed
      exact ⟨hproject'.symm.trans hproject, hmethod.symm.trans hmethod'⟩
  rw [foundBy, foundBy, funext hkept, ← List.filter_filter, ← List.filter_filter,
    filter_not_isParsed_withGraph]

theorem leadingOut_withGraph (s : Store) (project : String) (g : DependencyGraph) :
    (s.withGraph project g).leadingOut project = g.external :=
  external_withGraph g

theorem leadingOut_withGraph_of_ne (hne : p ≠ project) :
    (s.withGraph p g).leadingOut project = s.leadingOut project := by
  have hkept (row : StoredExternal) : decide (row.project = project) =
      (decide (row.project = project) && decide (row.project ≠ p)) := by
    by_cases hrow : row.project = project
    · simp [hrow, hne.symm]
    · simp [hrow]
  rw [leadingOut, leadingOut, funext hkept, ← List.filter_filter, ← List.filter_filter,
    filter_external_withGraph]

end Store

end ChangeImpact
