import ChangeImpact.Proofs.Store.Rows
import ChangeImpact.Store.Decisions
import ChangeImpact.Store.Graph

/-!
# Intact stores

The constraints that the tables keep: identifiers and the other keys are unique,
every reference leads to a row, and no edge leads back to its source. Together
with having no cell that cannot be read they make an intact store. Every
statement that is accepted keeps a store intact.
-/

namespace ChangeImpact.Store

/-- The constraints of the tables hold. -/
structure Consistent (s : Store) : Prop where
  projectIds : Keyed (·.id) s.projects
  componentIds : Keyed (·.id) s.components
  componentNames : Keyed (fun c => (c.project, c.name)) s.components
  componentProjects : Refers (fun c => some c.project) s.components (·.id) s.projects
  contributorKeys : Keyed (fun c => (c.component, c.user)) s.contributors
  contributorComponents : Refers (fun c => some c.component) s.contributors (·.id) s.components
  fileIds : Keyed (·.id) s.files
  filePlaces : Keyed (fun f => (f.project, f.path)) s.files
  fileProjects : Refers (fun f => some f.project) s.files (·.id) s.projects
  fileComponents : Refers (·.component) s.files (·.id) s.components
  draftIds : Keyed (·.id) s.drafts
  draftFiles : Refers (fun d => some d.file) s.drafts (·.id) s.files
  edgeKeys : Keyed (fun e => (e.project, e.edge.source, e.edge.target, e.edge.method)) s.edges
  edgeEnds : ∀ e ∈ s.edges, e.edge.source ≠ e.edge.target
  edgeProjects : Refers (fun e => some e.project) s.edges (·.id) s.projects
  edgeSources : Refers (fun e => some e.edge.source) s.edges (·.id) s.components
  edgeTargets : Refers (fun e => some e.edge.target) s.edges (·.id) s.components
  externalProjects : Refers (fun d => some d.project) s.external (·.id) s.projects
  requestIds : Keyed (·.id) s.requests
  requestProjects : Refers (fun r => some r.project) s.requests (·.id) s.projects
  requestComponents : Refers (fun r => some r.component) s.requests (·.id) s.components
  impactIds : Keyed (·.id) s.impacts
  impactRequests : Refers (fun i => some i.change) s.impacts (·.id) s.requests
  impactComponents : Refers (fun i => some i.component) s.impacts (·.id) s.components
  snapshotIds : Keyed (·.id) s.snapshots
  snapshotProjects : Refers (fun n => some n.project) s.snapshots (·.id) s.projects
  snapshotRequests : Refers (·.change) s.snapshots (·.id) s.requests
  snapshotFileKeys : Keyed (fun f => (f.snapshot, f.file.file)) s.snapshotFiles
  snapshotFileSnapshots : Refers (fun f => some f.snapshot) s.snapshotFiles (·.id) s.snapshots

/-- The constraints hold and every cell can be read. -/
structure Intact (s : Store) : Prop extends Consistent s where
  readable : s.damaged = []

theorem intact_empty : Intact {} where
  projectIds := .nil
  componentIds := .nil
  componentNames := .nil
  componentProjects := .nil
  contributorKeys := .nil
  contributorComponents := .nil
  fileIds := .nil
  filePlaces := .nil
  fileProjects := .nil
  fileComponents := .nil
  draftIds := .nil
  draftFiles := .nil
  edgeKeys := .nil
  edgeEnds := by intro e he; cases he
  edgeProjects := .nil
  edgeSources := .nil
  edgeTargets := .nil
  externalProjects := .nil
  requestIds := .nil
  requestProjects := .nil
  requestComponents := .nil
  impactIds := .nil
  impactRequests := .nil
  impactComponents := .nil
  snapshotIds := .nil
  snapshotProjects := .nil
  snapshotRequests := .nil
  snapshotFileKeys := .nil
  snapshotFileSnapshots := .nil
  readable := rfl

variable {s t : Store}

/-- A sequence succeeds when both parts do. -/
theorem bind_eq_ok {α β : Type} {x : Except Failure α} {f : α → Except Failure β} {b : β} :
    (x >>= f) = .ok b ↔ ∃ a, x = .ok a ∧ f a = .ok b := by
  cases x with
  | error e => simp [bind, Except.bind]
  | ok a => simp [bind, Except.bind]

/-- A checked step goes on exactly when its condition holds. -/
theorem demand_bind_ok {α : Type} {c : Bool} {e : Failure} {f : Unit → Except Failure α} {a : α} :
    (demand c e >>= f) = .ok a ↔ c = true ∧ f () = .ok a := by
  cases c with
  | false => constructor <;> intro h <;> simp [demand, bind, Except.bind] at h
  | true => simp [demand, bind, Except.bind]

theorem hasProject_iff {id : String} : s.hasProject id = true ↔ ∃ p ∈ s.projects, p.id = id := by
  simp only [hasProject, List.any_eq_true, decide_eq_true_eq]

theorem hasComponent_iff {id : String} :
    s.hasComponent id = true ↔ ∃ c ∈ s.components, c.id = id := by
  simp only [hasComponent, List.any_eq_true, decide_eq_true_eq]

theorem hasFile_iff {id : String} : s.hasFile id = true ↔ ∃ f ∈ s.files, f.id = id := by
  simp only [hasFile, List.any_eq_true, decide_eq_true_eq]

theorem hasRequest_iff {id : String} : s.hasRequest id = true ↔ ∃ r ∈ s.requests, r.id = id := by
  simp only [hasRequest, List.any_eq_true, decide_eq_true_eq]

private theorem forall_ne_of_not_any {α : Type} {p : α → Bool} {rows : List α}
    (h : (!rows.any p) = true) : ∀ r ∈ rows, p r = false := by
  intro r hr
  rw [Bool.not_eq_true', List.any_eq_false] at h
  exact Bool.eq_false_iff.mpr (h r hr)

theorem mend_of_readable (h : s.damaged = []) (c : Column) (p : String → Bool) :
    (s.mend c p).damaged = [] := by
  rw [mend, h, List.filter_nil]

/-! ## Projects, components and contributors -/

theorem Intact.insertProject (h : s.Intact) {p : Project} (hi : s.insertProject p = .ok t) :
    t.Intact := by
  obtain ⟨hk, hi⟩ := demand_bind_ok.mp hi
  cases hi
  have hk : ∀ q ∈ s.projects, q.id ≠ p.id := by
    simpa [hasProject] using hk
  exact
    { h with
      projectIds := h.projectIds.append hk
      componentProjects := h.componentProjects.append_targets _
      fileProjects := h.fileProjects.append_targets _
      edgeProjects := h.edgeProjects.append_targets _
      externalProjects := h.externalProjects.append_targets _
      requestProjects := h.requestProjects.append_targets _
      snapshotProjects := h.snapshotProjects.append_targets _ }

theorem Intact.insertComponent (h : s.Intact) {c : Component}
    (hi : s.insertComponent c = .ok t) : t.Intact := by
  obtain ⟨hk, hi⟩ := demand_bind_ok.mp hi
  obtain ⟨hn, hi⟩ := demand_bind_ok.mp hi
  obtain ⟨hp, hi⟩ := demand_bind_ok.mp hi
  cases hi
  have hk : ∀ d ∈ s.components, d.id ≠ c.id := by
    simpa [hasComponent] using hk
  have hn : ∀ d ∈ s.components, (d.project, d.name) ≠ (c.project, c.name) := by
    simpa using hn
  refine
    { h with
      componentIds := h.componentIds.append hk
      componentNames := h.componentNames.append hn
      componentProjects := h.componentProjects.append ?_
      contributorComponents := h.contributorComponents.append_targets _
      fileComponents := h.fileComponents.append_targets _
      edgeSources := h.edgeSources.append_targets _
      edgeTargets := h.edgeTargets.append_targets _
      requestComponents := h.requestComponents.append_targets _
      impactComponents := h.impactComponents.append_targets _ }
  rintro k ⟨⟩
  exact hasProject_iff.mp hp

theorem setComponentStatus_nil (status : ComponentStatus) (s : Store) :
    s.setComponentStatus [] status = s := by
  simp [setComponentStatus, mend, updateWhere]

theorem Intact.setComponentStatus (h : s.Intact) (ids : List String) (status : ComponentStatus) :
    (s.setComponentStatus ids status).Intact :=
  { h with
    componentIds := h.componentIds.updateWhere fun _ _ => rfl
    componentNames := h.componentNames.updateWhere fun _ _ => rfl
    componentProjects := h.componentProjects.updateWhere fun _ _ => rfl
    contributorComponents := h.contributorComponents.update_targets fun _ _ => rfl
    fileComponents := h.fileComponents.update_targets fun _ _ => rfl
    edgeSources := h.edgeSources.update_targets fun _ _ => rfl
    edgeTargets := h.edgeTargets.update_targets fun _ _ => rfl
    requestComponents := h.requestComponents.update_targets fun _ _ => rfl
    impactComponents := h.impactComponents.update_targets fun _ _ => rfl
    readable := mend_of_readable (by exact h.readable) _ _ }

theorem Intact.addContributor (h : s.Intact) {c : Contributor}
    (hi : s.addContributor c = .ok t) : t.Intact := by
  rw [Store.addContributor] at hi
  split at hi
  · cases hi
    exact
      { h with
        contributorKeys := h.contributorKeys.updateWhere fun _ _ => rfl
        contributorComponents := h.contributorComponents.updateWhere fun _ _ => rfl }
  · rename_i hn
    obtain ⟨hc, hi⟩ := demand_bind_ok.mp hi
    cases hi
    have hn : ∀ d ∈ s.contributors, (d.component, d.user) ≠ (c.component, c.user) := by
      simpa using hn
    refine
      { h with
        contributorKeys := h.contributorKeys.append hn
        contributorComponents := h.contributorComponents.append ?_ }
    rintro k ⟨⟩
    exact hasComponent_iff.mp hc

/-! ## Files and drafts -/

theorem ownerExists_iff {f : ProjectFile} :
    s.ownerExists f = true ↔ ∀ k, f.component = some k → ∃ c ∈ s.components, c.id = k := by
  rw [ownerExists]
  cases f.component with
  | none => simp
  | some c => simp [hasComponent]

theorem samePlace_iff {f g : ProjectFile} :
    samePlace f g = true ↔ (f.project, f.path) = (g.project, g.path) := by
  simp [samePlace]

theorem Intact.upsertFile (h : s.Intact) {f : ProjectFile} {id : String}
    (hi : s.upsertFile f = .ok (id, t)) : t.Intact := by
  rw [Store.upsertFile] at hi
  split at hi
  · rename_i old hold
    obtain ⟨ho, hi⟩ := demand_bind_ok.mp hi
    cases hi
    have hp := samePlace_iff.mp (List.find?_some hold)
    have hm := List.mem_of_find?_eq_some hold
    exact
      { h with
        fileIds := h.fileIds.updateWhere fun _ _ => rfl
        filePlaces := h.filePlaces.updateWhere fun g hg => samePlace_iff.mp hg
        fileProjects := h.fileProjects.updateWhere fun g hg => by
          rw [(Prod.mk.inj (samePlace_iff.mp hg)).1]
        fileComponents := h.fileComponents.rewrite fun _ _ => ownerExists_iff.mp ho
        draftFiles := h.draftFiles.update_targets fun _ _ => rfl
        readable := mend_of_readable (by exact h.readable) _ _ }
  · rename_i hnone
    obtain ⟨hk, hi⟩ := demand_bind_ok.mp hi
    obtain ⟨hr, hi⟩ := demand_bind_ok.mp hi
    cases hi
    have hk : ∀ g ∈ s.files, g.id ≠ f.id := by
      simpa [hasFile] using hk
    have hn : ∀ g ∈ s.files, (g.project, g.path) ≠ (f.project, f.path) := by
      intro g hg he
      exact List.find?_eq_none.mp hnone g hg (samePlace_iff.mpr he.symm)
    rw [Bool.and_eq_true] at hr
    refine
      { h with
        fileIds := h.fileIds.append hk
        filePlaces := h.filePlaces.append hn
        fileProjects := h.fileProjects.append ?_
        fileComponents := h.fileComponents.append (ownerExists_iff.mp hr.2)
        draftFiles := h.draftFiles.append_targets _ }
    rintro k ⟨⟩
    exact hasProject_iff.mp hr.1

theorem Intact.setSymbols (h : s.Intact) {id : String} {symbols : Option ParsedFile}
    (hi : s.setSymbols id symbols = .ok t) : t.Intact := by
  obtain ⟨-, hi⟩ := demand_bind_ok.mp hi
  cases hi
  exact
    { h with
      fileIds := h.fileIds.updateWhere fun _ _ => rfl
      filePlaces := h.filePlaces.updateWhere fun _ _ => rfl
      fileProjects := h.fileProjects.updateWhere fun _ _ => rfl
      fileComponents := h.fileComponents.updateWhere fun _ _ => rfl
      draftFiles := h.draftFiles.update_targets fun _ _ => rfl
      readable := mend_of_readable (by exact h.readable) _ _ }

theorem Intact.insertDraft (h : s.Intact) {d : Draft} (hi : s.insertDraft d = .ok t) :
    t.Intact := by
  obtain ⟨hk, hi⟩ := demand_bind_ok.mp hi
  obtain ⟨hf, hi⟩ := demand_bind_ok.mp hi
  cases hi
  have hk : ∀ e ∈ s.drafts, e.id ≠ d.id := by
    simpa using hk
  refine { h with draftIds := h.draftIds.append hk, draftFiles := h.draftFiles.append ?_ }
  rintro k ⟨⟩
  exact hasFile_iff.mp hf

/-! ## The graph -/

theorem connects_iff {project : String} {e : DependencyEdge} {row : StoredEdge} :
    connects project e row = true ↔
      (row.project, row.edge.source, row.edge.target, row.edge.method) =
        (project, e.source, e.target, e.method) := by
  simp [connects, and_assoc]

theorem Intact.insertEdge (h : s.Intact) {project : String} {e : DependencyEdge}
    (hi : s.insertEdge project e = .ok t) : t.Intact := by
  obtain ⟨he, hi⟩ := demand_bind_ok.mp hi
  obtain ⟨hk, hi⟩ := demand_bind_ok.mp hi
  obtain ⟨hr, hi⟩ := demand_bind_ok.mp hi
  cases hi
  have hk : ∀ row ∈ s.edges, (row.project, row.edge.source, row.edge.target, row.edge.method) ≠
      (project, e.source, e.target, e.method) := by
    intro row hrow heq
    have hn := forall_ne_of_not_any hk row hrow
    rw [connects_iff.mpr heq] at hn
    cases hn
  rw [Bool.and_eq_true, Bool.and_eq_true] at hr
  refine
    { h with
      edgeKeys := h.edgeKeys.append hk
      edgeEnds := ?_
      edgeProjects := h.edgeProjects.append ?_
      edgeSources := h.edgeSources.append ?_
      edgeTargets := h.edgeTargets.append ?_ }
  · intro row hrow
    rcases List.mem_append.mp hrow with hrow | hrow
    · exact h.edgeEnds row hrow
    · rw [List.mem_singleton.mp hrow]
      exact of_decide_eq_true he
  · rintro k ⟨⟩
    exact hasProject_iff.mp hr.1.1
  · rintro k ⟨⟩
    exact hasComponent_iff.mp hr.1.2
  · rintro k ⟨⟩
    exact hasComponent_iff.mp hr.2

theorem Intact.insertExternal (h : s.Intact) {project : String} {d : ExternalDependency}
    (hi : s.insertExternal project d = .ok t) : t.Intact := by
  obtain ⟨hp, hi⟩ := demand_bind_ok.mp hi
  cases hi
  refine { h with externalProjects := h.externalProjects.append ?_ }
  rintro k ⟨⟩
  exact hasProject_iff.mp hp

theorem Intact.clearGraph (h : s.Intact) (project : String) : (s.clearGraph project).Intact :=
  { h with
    edgeKeys := h.edgeKeys.filter _
    edgeEnds := fun e he => h.edgeEnds e (List.mem_of_mem_filter he)
    edgeProjects := h.edgeProjects.filter _
    edgeSources := h.edgeSources.filter _
    edgeTargets := h.edgeTargets.filter _
    externalProjects := h.externalProjects.filter _ }

/-- A batch of statements keeps what each of them keeps. -/
theorem foldlM_keeps {α : Type} {I : Store → Prop} {f : Store → α → Except Failure Store}
    (hf : ∀ s t a, I s → f s a = .ok t → I t) {rows : List α} (h : I s)
    (hi : rows.foldlM f s = .ok t) : I t := by
  induction rows generalizing s with
  | nil =>
    cases hi
    exact h
  | cons a rows ih =>
    rw [List.foldlM_cons] at hi
    obtain ⟨u, ha, hi⟩ := bind_eq_ok.mp hi
    exact ih (hf s u a h ha) hi

/-- A batch of statements that add one row each adds the rows of all of them. -/
theorem eq_of_foldlM {α β : Type} (table : Store → List β) (put : Store → List β → Store)
    {row : α → β} {f : Store → α → Except Failure Store} {as : List α}
    (h : as.foldlM f s = .ok t)
    (hf : ∀ {s t a}, f s a = .ok t → t = put s (table s ++ [row a]))
    (hself : ∀ s, put s (table s) = s) (htable : ∀ s rows, table (put s rows) = rows)
    (hput : ∀ s rows rows', put (put s rows) rows' = put s rows') :
    t = put s (table s ++ as.map row) := by
  induction as generalizing s with
  | nil =>
    cases h
    rw [List.map_nil, List.append_nil, hself]
  | cons a as ih =>
    rw [List.foldlM_cons] at h
    obtain ⟨u, hu, h⟩ := bind_eq_ok.mp h
    rw [ih h, hf hu, htable, hput, List.append_assoc]
    rfl

theorem Intact.replaceGraph (h : s.Intact) {project : String} {g : DependencyGraph}
    (hi : s.replaceGraph project g = .ok t) : t.Intact := by
  obtain ⟨u, he, hi⟩ := bind_eq_ok.mp hi
  have hu : u.Intact :=
    foldlM_keeps (fun _ _ _ hs ha => hs.insertEdge ha) (h.clearGraph project) he
  exact foldlM_keeps (fun _ _ _ hs ha => hs.insertExternal ha) hu hi

theorem Intact.upsertEdge (h : s.Intact) {project : String} {e : DependencyEdge}
    (hi : s.upsertEdge project e = .ok t) : t.Intact := by
  obtain ⟨-, hi⟩ := demand_bind_ok.mp hi
  split at hi
  · cases hi
    refine
      { h with
        edgeKeys := h.edgeKeys.updateWhere fun _ _ => rfl
        edgeEnds := ?_
        edgeProjects := h.edgeProjects.updateWhere fun _ _ => rfl
        edgeSources := h.edgeSources.updateWhere fun _ _ => rfl
        edgeTargets := h.edgeTargets.updateWhere fun _ _ => rfl }
    intro row hrow
    obtain ⟨old, hold, rfl⟩ := mem_updateWhere.mp hrow
    split
    · exact h.edgeEnds old hold
    · exact h.edgeEnds old hold
  · exact h.insertEdge hi

/-! ## Change requests and impacts -/

theorem Intact.insertRequest (h : s.Intact) {r : ChangeRequest}
    (hi : s.insertRequest r = .ok t) : t.Intact := by
  obtain ⟨hk, hi⟩ := demand_bind_ok.mp hi
  obtain ⟨hr, hi⟩ := demand_bind_ok.mp hi
  cases hi
  have hk : ∀ q ∈ s.requests, q.id ≠ r.id := by
    simpa [hasRequest] using hk
  rw [Bool.and_eq_true] at hr
  refine
    { h with
      requestIds := h.requestIds.append hk
      requestProjects := h.requestProjects.append ?_
      requestComponents := h.requestComponents.append ?_
      impactRequests := h.impactRequests.append_targets _
      snapshotRequests := h.snapshotRequests.append_targets _ }
  · rintro k ⟨⟩
    exact hasProject_iff.mp hr.1
  · rintro k ⟨⟩
    exact hasComponent_iff.mp hr.2

/-- Writing the status and the times of a request. -/
theorem Intact.updateRequest (h : s.Intact) {id : String} {f : ChangeRequest → ChangeRequest}
    (hid : ∀ r, (f r).id = r.id) (hp : ∀ r, (f r).project = r.project)
    (hc : ∀ r, (f r).component = r.component) : (s.updateRequest id f).Intact :=
  { h with
    requestIds := h.requestIds.updateWhere fun r _ => hid r
    requestProjects := h.requestProjects.updateWhere fun r _ => by rw [hp r]
    requestComponents := h.requestComponents.updateWhere fun r _ => by rw [hc r]
    impactRequests := h.impactRequests.update_targets fun r _ => hid r
    snapshotRequests := h.snapshotRequests.update_targets fun r _ => hid r
    readable := mend_of_readable (by exact h.readable) _ _ }

theorem Intact.setStatus (h : s.Intact) {id : String} {status : ChangeStatus} {now : Instant}
    (hi : s.setStatus id status now = .ok t) : t.Intact := by
  obtain ⟨-, hi⟩ := demand_bind_ok.mp hi
  cases hi
  exact h.updateRequest (fun _ => rfl) (fun _ => rfl) (fun _ => rfl)

theorem Intact.insertImpact (h : s.Intact) {i : Impact} (hi : s.insertImpact i = .ok t) :
    t.Intact := by
  obtain ⟨hk, hi⟩ := demand_bind_ok.mp hi
  obtain ⟨hr, hi⟩ := demand_bind_ok.mp hi
  cases hi
  have hk : ∀ j ∈ s.impacts, j.id ≠ i.id := by
    simpa using hk
  rw [Bool.and_eq_true] at hr
  refine
    { h with
      impactIds := h.impactIds.append hk
      impactRequests := h.impactRequests.append ?_
      impactComponents := h.impactComponents.append ?_ }
  · rintro k ⟨⟩
    exact hasRequest_iff.mp hr.1
  · rintro k ⟨⟩
    exact hasComponent_iff.mp hr.2

theorem Intact.insertImpacts (h : s.Intact) {is : List Impact}
    (hi : s.insertImpacts is = .ok t) : t.Intact :=
  foldlM_keeps (fun _ _ _ hs ha => hs.insertImpact ha) h hi

theorem Intact.commitAnalysis (h : s.Intact) {id : String} {is : List Impact}
    {flagged : List String} {now : Instant} {done : Bool}
    (hi : s.commitAnalysis id is flagged now = .ok (done, t)) : t.Intact := by
  rw [Store.commitAnalysis] at hi
  split at hi
  · have hm : (s.updateRequest id fun r =>
        { r with status := .analysisComplete, updatedAt := now }).Intact :=
      h.updateRequest (fun _ => rfl) (fun _ => rfl) (fun _ => rfl)
    obtain ⟨u, hins, hi⟩ := bind_eq_ok.mp hi
    cases hi
    exact (hm.insertImpacts hins).setComponentStatus _ _
  · cases hi
    exact h

/-- Changing what is said about impacts. -/
theorem Intact.updateImpacts (h : s.Intact) {p : Impact → Bool} {f : Impact → Impact}
    (hid : ∀ i, (f i).id = i.id) (hr : ∀ i, (f i).change = i.change)
    (hc : ∀ i, (f i).component = i.component) :
    Intact { s with impacts := updateWhere p f s.impacts } :=
  { h with
    impactIds := h.impactIds.updateWhere fun i _ => hid i
    impactRequests := h.impactRequests.updateWhere fun i _ => by rw [hr i]
    impactComponents := h.impactComponents.updateWhere fun i _ => by rw [hc i] }

theorem Intact.acknowledge (h : s.Intact) (id : String) (time : Instant) (auto : Bool) :
    (s.acknowledge id time auto).2.Intact :=
  h.updateImpacts (fun _ => rfl) (fun _ => rfl) (fun _ => rfl)

theorem Intact.dismiss (h : s.Intact) (id : String) (time : Instant) :
    (s.dismiss id time).2.Intact :=
  h.updateImpacts (fun _ => rfl) (fun _ => rfl) (fun _ => rfl)

theorem Intact.annotate (h : s.Intact) (id : String) (comment : Json) :
    (s.annotate id comment).Intact := by
  have hu : Intact { s with
      impacts := updateWhere (·.id = id) (fun i => { i with comment := some comment })
        s.impacts } :=
    h.updateImpacts (fun _ => rfl) (fun _ => rfl) (fun _ => rfl)
  exact { hu with readable := mend_of_readable hu.readable _ _ }

/-! ## Decisions -/

theorem Intact.promote (h : s.Intact) (p : PromotedFile) : (s.promote p).Intact := by
  have hd : Refers (fun d => some d.file)
      (updateWhere (·.id = p.draft) (fun d => { d with active := false }) s.drafts) (·.id)
      s.files :=
    h.draftFiles.updateWhere fun _ _ => rfl
  exact
    { h with
      fileIds := h.fileIds.updateWhere fun _ _ => rfl
      filePlaces := h.filePlaces.updateWhere fun _ _ => rfl
      fileProjects := h.fileProjects.updateWhere fun _ _ => rfl
      fileComponents := h.fileComponents.updateWhere fun _ _ => rfl
      draftIds := h.draftIds.updateWhere fun _ _ => rfl
      draftFiles := hd.update_targets fun _ _ => rfl
      readable := mend_of_readable (by exact h.readable) _ _ }

theorem Intact.close (h : s.Intact) (id : String) (status : ChangeStatus) (now : Instant) :
    (s.close id status now).Intact :=
  h.updateRequest (fun _ => rfl) (fun _ => rfl) (fun _ => rfl)

theorem Intact.takeSnapshot (h : s.Intact) {n : Snapshot} (hi : s.takeSnapshot n = .ok t) :
    t.Intact := by
  obtain ⟨hk, hi⟩ := demand_bind_ok.mp hi
  obtain ⟨hr, hi⟩ := demand_bind_ok.mp hi
  cases hi
  have hk : ∀ m ∈ s.snapshots, m.id ≠ n.id := by
    simpa using hk
  rw [Bool.and_eq_true] at hr
  refine
    { h with
      snapshotIds := h.snapshotIds.append hk
      snapshotProjects := h.snapshotProjects.append ?_
      snapshotRequests := h.snapshotRequests.append ?_
      snapshotFileKeys := ?_
      snapshotFileSnapshots := ?_ }
  · rintro k ⟨⟩
    exact hasProject_iff.mp hr.1
  · intro k hc
    have ha := hr.2
    rw [show n.change = some k from hc] at ha
    exact hasRequest_iff.mp ha
  · rw [Keyed, List.map_append, List.nodup_append]
    refine ⟨h.snapshotFileKeys, ?_, ?_⟩
    · rw [List.map_map]
      have hf := h.fileIds.filter fun f => decide (f.project = n.project)
      rw [Keyed, ← List.nodup_map_iff (f := fun id => (n.id, id))
        (fun a b hab => (Prod.mk.inj hab).2), List.map_map] at hf
      exact hf
    · rintro x hx y hy rfl
      obtain ⟨row, hrow, rfl⟩ := List.mem_map.mp hx
      rw [List.map_map] at hy
      obtain ⟨f, -, hf⟩ := List.mem_map.mp hy
      obtain ⟨m, hm, hid⟩ := h.snapshotFileSnapshots row hrow _ rfl
      exact hk m hm (hid.trans (Prod.mk.inj hf).1.symm)
  · intro row hrow k hkey
    rcases List.mem_append.mp hrow with hrow | hrow
    · exact h.snapshotFileSnapshots.append_targets _ row hrow k hkey
    · obtain ⟨f, -, rfl⟩ := List.mem_map.mp hrow
      cases hkey
      exact ⟨n, List.mem_append_right _ (List.mem_singleton_self n), rfl⟩

theorem Intact.promoteAll (h : s.Intact) (ps : List PromotedFile) :
    (ps.foldl (fun s p => s.promote p) s).Intact := by
  induction ps generalizing s with
  | nil => exact h
  | cons p ps ih => exact ih (h.promote p)

theorem Intact.commitApproval (h : s.Intact) {c : ApprovalCommit} {snapshot : String}
    (hi : s.commitApproval c snapshot = .ok t) : t.Intact :=
  (((h.promoteAll c.promoted).setComponentStatus c.stabilize .stable).close c.change .approved
    c.resolvedAt).takeSnapshot hi

theorem Intact.commitRejection (h : s.Intact) (change : String) (stabilize : List String)
    (resolvedAt : Instant) : (s.commitRejection change stabilize resolvedAt).Intact :=
  (h.setComponentStatus stabilize .stable).close change .rejected resolvedAt

end ChangeImpact.Store
