import ChangeImpact.Proofs.Store.Intact
import Mathlib.Order.Defs.Unbundled

/-!
# What statements leave alone

No statement loses a project, breaks a constraint or touches the schema. The statements
that have nothing to do with change requests leave the tables of requests and impacts
as they are.
-/

namespace ChangeImpact.Store

variable {s t : Store}

/-- Constraints are kept, projects stay, and the schema is the same. -/
structure Grows (s t : Store) : Prop where
  intact : s.Intact → t.Intact
  projects : s.projects ⊆ t.projects
  schema : t.schema = s.schema

/-- Besides, requests and impacts are the same. -/
structure Aside (s t : Store) : Prop extends Grows s t where
  requests : t.requests = s.requests
  impacts : t.impacts = s.impacts

instance : IsPreorder Store Grows where
  refl _ := ⟨id, List.Subset.refl _, rfl⟩
  trans _ _ _ h h' := ⟨h'.intact ∘ h.intact, List.Subset.trans h.projects h'.projects,
    h'.schema.trans h.schema⟩

instance : IsPreorder Store Aside where
  refl s := ⟨refl_of Grows s, rfl, rfl⟩
  trans _ _ _ h h' := ⟨trans_of Grows h.toGrows h'.toGrows, h'.requests.trans h.requests,
    h'.impacts.trans h.impacts⟩

/-- A batch of statements does what each of them does. -/
theorem foldlM_rel {α : Type} {r : Store → Store → Prop} [IsPreorder Store r]
    {f : Store → α → Except Failure Store} (hf : ∀ s t a, f s a = .ok t → r s t) {rows : List α}
    (h : rows.foldlM f s = .ok t) : r s t :=
  foldlM_keeps (I := r s) (fun u v a hu ha => trans_of r hu (hf u v a ha)) (refl_of r s) h

/-! ## Statements aside from change requests -/

theorem aside_insertProject {p : Project} (h : s.insertProject p = .ok t) : Aside s t := by
  have hi (hs : s.Intact) := hs.insertProject h
  obtain ⟨-, h⟩ := demand_bind_ok.mp h
  cases h
  exact ⟨⟨hi, List.subset_append_left _ _, rfl⟩, rfl, rfl⟩

theorem aside_insertComponent {c : Component} (h : s.insertComponent c = .ok t) : Aside s t := by
  have hi (hs : s.Intact) := hs.insertComponent h
  obtain ⟨-, h⟩ := demand_bind_ok.mp h
  obtain ⟨-, h⟩ := demand_bind_ok.mp h
  obtain ⟨-, h⟩ := demand_bind_ok.mp h
  cases h
  exact ⟨⟨hi, List.Subset.refl _, rfl⟩, rfl, rfl⟩

theorem aside_setComponentStatus (s : Store) (ids : List String) (status : ComponentStatus) :
    Aside s (s.setComponentStatus ids status) :=
  ⟨⟨fun hs => hs.setComponentStatus ids status, List.Subset.refl _, rfl⟩, rfl, rfl⟩

theorem aside_addContributor {c : Contributor} (h : s.addContributor c = .ok t) : Aside s t := by
  have hi (hs : s.Intact) := hs.addContributor h
  rw [addContributor] at h
  split at h
  · cases h
    exact ⟨⟨hi, List.Subset.refl _, rfl⟩, rfl, rfl⟩
  · obtain ⟨-, h⟩ := demand_bind_ok.mp h
    cases h
    exact ⟨⟨hi, List.Subset.refl _, rfl⟩, rfl, rfl⟩

theorem aside_upsertFile {f : ProjectFile} {id : String} (h : s.upsertFile f = .ok (id, t)) :
    Aside s t := by
  have hi (hs : s.Intact) := hs.upsertFile h
  rw [upsertFile] at h
  split at h
  · obtain ⟨-, h⟩ := demand_bind_ok.mp h
    cases h
    exact ⟨⟨hi, List.Subset.refl _, rfl⟩, rfl, rfl⟩
  · obtain ⟨-, h⟩ := demand_bind_ok.mp h
    obtain ⟨-, h⟩ := demand_bind_ok.mp h
    cases h
    exact ⟨⟨hi, List.Subset.refl _, rfl⟩, rfl, rfl⟩

theorem aside_setSymbols {id : String} {symbols : Option ParsedFile}
    (h : s.setSymbols id symbols = .ok t) : Aside s t := by
  have hi (hs : s.Intact) := hs.setSymbols h
  obtain ⟨-, h⟩ := demand_bind_ok.mp h
  cases h
  exact ⟨⟨hi, List.Subset.refl _, rfl⟩, rfl, rfl⟩

theorem aside_insertDraft {d : Draft} (h : s.insertDraft d = .ok t) : Aside s t := by
  have hi (hs : s.Intact) := hs.insertDraft h
  obtain ⟨-, h⟩ := demand_bind_ok.mp h
  obtain ⟨-, h⟩ := demand_bind_ok.mp h
  cases h
  exact ⟨⟨hi, List.Subset.refl _, rfl⟩, rfl, rfl⟩

theorem aside_insertEdge {project : String} {e : DependencyEdge}
    (h : s.insertEdge project e = .ok t) : Aside s t := by
  have hi (hs : s.Intact) := hs.insertEdge h
  obtain ⟨-, h⟩ := demand_bind_ok.mp h
  obtain ⟨-, h⟩ := demand_bind_ok.mp h
  obtain ⟨-, h⟩ := demand_bind_ok.mp h
  cases h
  exact ⟨⟨hi, List.Subset.refl _, rfl⟩, rfl, rfl⟩

theorem aside_insertExternal {project : String} {d : ExternalDependency}
    (h : s.insertExternal project d = .ok t) : Aside s t := by
  have hi (hs : s.Intact) := hs.insertExternal h
  obtain ⟨-, h⟩ := demand_bind_ok.mp h
  cases h
  exact ⟨⟨hi, List.Subset.refl _, rfl⟩, rfl, rfl⟩

theorem aside_upsertEdge {project : String} {e : DependencyEdge}
    (h : s.upsertEdge project e = .ok t) : Aside s t := by
  have hi (hs : s.Intact) := hs.upsertEdge h
  obtain ⟨-, h⟩ := demand_bind_ok.mp h
  split at h
  · cases h
    exact ⟨⟨hi, List.Subset.refl _, rfl⟩, rfl, rfl⟩
  · exact aside_insertEdge h

theorem aside_replaceGraph {project : String} {g : DependencyGraph}
    (h : s.replaceGraph project g = .ok t) : Aside s t := by
  have hc : Aside s (s.clearGraph project) :=
    ⟨⟨fun hs => hs.clearGraph project, List.Subset.refl _, rfl⟩, rfl, rfl⟩
  obtain ⟨u, he, h⟩ := bind_eq_ok.mp h
  have hu : Aside (s.clearGraph project) u := foldlM_rel (fun _ _ _ => aside_insertEdge) he
  exact trans_of Aside (trans_of Aside hc hu) (foldlM_rel (fun _ _ _ => aside_insertExternal) h)

/-! ## Statements about change requests -/

theorem grows_insertRequest {r : ChangeRequest} (h : s.insertRequest r = .ok t) : Grows s t := by
  have hi (hs : s.Intact) := hs.insertRequest h
  obtain ⟨-, h⟩ := demand_bind_ok.mp h
  obtain ⟨-, h⟩ := demand_bind_ok.mp h
  cases h
  exact ⟨hi, List.Subset.refl _, rfl⟩

theorem grows_setStatus {id : String} {status : ChangeStatus} {now : Instant}
    (h : s.setStatus id status now = .ok t) : Grows s t := by
  have hi (hs : s.Intact) := hs.setStatus h
  obtain ⟨-, h⟩ := demand_bind_ok.mp h
  cases h
  exact ⟨hi, List.Subset.refl _, rfl⟩

theorem grows_insertImpact {i : Impact} (h : s.insertImpact i = .ok t) : Grows s t := by
  have hi (hs : s.Intact) := hs.insertImpact h
  obtain ⟨-, h⟩ := demand_bind_ok.mp h
  obtain ⟨-, h⟩ := demand_bind_ok.mp h
  cases h
  exact ⟨hi, List.Subset.refl _, rfl⟩

theorem grows_commitAnalysis {id : String} {is : List Impact} {flagged : List String}
    {now : Instant} {done : Bool} (h : s.commitAnalysis id is flagged now = .ok (done, t)) :
    Grows s t := by
  have hi (hs : s.Intact) := hs.commitAnalysis h
  rw [commitAnalysis] at h
  split at h
  · obtain ⟨u, hins, h⟩ := bind_eq_ok.mp h
    cases h
    have hu := foldlM_rel (r := Grows) (fun _ _ _ => grows_insertImpact) hins
    exact ⟨hi, hu.projects, hu.schema⟩
  · cases h
    exact refl_of Grows s

theorem grows_acknowledge (s : Store) (id : String) (time : Instant) (auto : Bool) :
    Grows s (s.acknowledge id time auto).2 :=
  ⟨fun hs => hs.acknowledge id time auto, List.Subset.refl _, rfl⟩

theorem grows_dismiss (s : Store) (id : String) (time : Instant) : Grows s (s.dismiss id time).2 :=
  ⟨fun hs => hs.dismiss id time, List.Subset.refl _, rfl⟩

theorem grows_annotate (s : Store) (id : String) (comment : Json) :
    Grows s (s.annotate id comment) :=
  ⟨fun hs => hs.annotate id comment, List.Subset.refl _, rfl⟩

theorem grows_promote (s : Store) (p : PromotedFile) : Grows s (s.promote p) :=
  ⟨fun hs => hs.promote p, List.Subset.refl _, rfl⟩

private theorem grows_promoteAll (ps : List PromotedFile) (s : Store) :
    Grows s (ps.foldl (fun s p => s.promote p) s) := by
  induction ps generalizing s with
  | nil => exact refl_of Grows s
  | cons p ps ih => exact trans_of Grows (grows_promote s p) (ih (s.promote p))

theorem grows_commitApproval {c : ApprovalCommit} {snapshot : String}
    (h : s.commitApproval c snapshot = .ok t) : Grows s t := by
  have hi (hs : s.Intact) := hs.commitApproval h
  have hpromoted := grows_promoteAll c.promoted s
  obtain ⟨-, h⟩ := demand_bind_ok.mp h
  obtain ⟨-, h⟩ := demand_bind_ok.mp h
  cases h
  exact ⟨hi, hpromoted.projects, hpromoted.schema⟩

theorem grows_commitRejection (s : Store) (change : String) (stabilize : List String)
    (time : Instant) : Grows s (s.commitRejection change stabilize time) :=
  ⟨fun hs => hs.commitRejection change stabilize time, List.Subset.refl _, rfl⟩

end ChangeImpact.Store
