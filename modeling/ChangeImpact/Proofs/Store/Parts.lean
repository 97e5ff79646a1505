import ChangeImpact.Proofs.Store.Content
import ChangeImpact.Proofs.Workflow.Analysed

/-!
# The part of a project

The rows of most tables name the project that they belong to. Contributors, drafts, impacts
and the files of snapshots belong to one by way of the row that they refer to. All rows of a
project are its part of the tables. A statement that writes to rows of other projects alone
leaves the part as it is.
-/

namespace ChangeImpact.Store

/-! ## Owning a row -/

section Owns

variable {α : Type} {id project : α → String} {rows more : List α} {q key : String}

/-- Whether the row of an identifier belongs to a project. -/
def owns (id project : α → String) (rows : List α) (q key : String) : Bool :=
  rows.any fun a => id a = key && project a = q

theorem owns_eq_false :
    owns id project rows q key = false ↔ ∀ a ∈ rows, id a = key → project a ≠ q := by
  simp [owns]

/-- A row of another project is not owned. -/
theorem owns_of_ne (h : Keyed id rows) {a : α} (ha : a ∈ rows) (hne : project a ≠ q) :
    owns id project rows q (id a) = false := by
  refine owns_eq_false.mpr fun b hb hid => ?_
  rwa [h.eq_of_key_eq hb ha hid]

/-- An update that keeps identifiers and projects keeps what is owned. -/
theorem owns_updateWhere {p : α → Bool} {f : α → α} (hid : ∀ a, id (f a) = id a)
    (hproject : ∀ a, project (f a) = project a) :
    owns id project (updateWhere p f rows) = owns id project rows := by
  funext q key
  have hpairs := map_updateWhere (p := p) (f := f) (g := fun a => (id a, project a))
    (fun a _ => by rw [hid, hproject]) rows
  have hany (rows : List α) : owns id project rows q key =
      (rows.map fun a => (id a, project a)).any fun a => a.1 = key && a.2 = q := by
    rw [owns, List.any_map]
    rfl
  rw [hany, hpairs, ← hany]

/-- More rows of other projects do not count. -/
theorem owns_append (h : ∀ a ∈ more, project a ≠ q) :
    owns id project (rows ++ more) q = owns id project rows q := by
  funext key
  have hmore : owns id project more q key = false := owns_eq_false.mpr fun a ha _ => h a ha
  rw [owns, List.any_append]
  rw [owns] at hmore
  rw [hmore, Bool.or_false, owns]

end Owns

/-- Whether a component belongs to a project. -/
def ownsComponent (s : Store) : String → String → Bool := owns (·.id) (·.project) s.components

/-- Whether a file belongs to a project. -/
def ownsFile (s : Store) : String → String → Bool := owns (·.id) (·.project) s.files

/-- Whether a request belongs to a project. -/
def ownsRequest (s : Store) : String → String → Bool := owns (·.id) (·.project) s.requests

/-- Whether a snapshot belongs to a project. -/
def ownsSnapshot (s : Store) : String → String → Bool := owns (·.id) (·.project) s.snapshots

/-- The rows of a project. -/
def part (q : String) (s : Store) : Store :=
  { s with
    projects := s.projects.filter (·.id = q)
    components := s.components.filter (·.project = q)
    contributors := s.contributors.filter fun m => s.ownsComponent q m.component
    files := s.files.filter (·.project = q)
    drafts := s.drafts.filter fun d => s.ownsFile q d.file
    edges := s.edges.filter (·.project = q)
    external := s.external.filter (·.project = q)
    requests := s.requests.filter (·.project = q)
    impacts := s.impacts.filter fun i => s.ownsRequest q i.change
    snapshots := s.snapshots.filter (·.project = q)
    snapshotFiles := s.snapshotFiles.filter fun f => s.ownsSnapshot q f.snapshot }

variable {s t : Store} {q : String}

/-! ## Requests and impacts -/

theorem part_insertRequest {r : ChangeRequest} (hne : r.project ≠ q)
    (h : s.insertRequest r = .ok t) : t.part q = s.part q := by
  obtain ⟨-, h⟩ := demand_bind_ok.mp h
  obtain ⟨-, h⟩ := demand_bind_ok.mp h
  cases h
  have howns : owns ChangeRequest.id ChangeRequest.project (s.requests ++ [r]) q =
      owns ChangeRequest.id ChangeRequest.project s.requests q :=
    owns_append fun a ha => List.mem_singleton.mp ha ▸ hne
  simp [part, ownsComponent, ownsFile, ownsRequest, ownsSnapshot, howns, hne]

theorem part_updateRequest (h : s.damaged = []) {id : String} {f : ChangeRequest → ChangeRequest}
    (hid : ∀ r, (f r).id = r.id) (hproject : ∀ r, (f r).project = r.project)
    (hne : s.ownsRequest q id = false) : (s.updateRequest id f).part q = s.part q := by
  have hrows : (updateWhere (·.id = id) f s.requests).filter (·.project = q) =
      s.requests.filter (·.project = q) := by
    refine filter_updateWhere_of_not (fun r => by rw [hproject]) fun r hr hp => ?_
    exact decide_eq_false (owns_eq_false.mp hne r hr (of_decide_eq_true hp))
  have howns : owns ChangeRequest.id ChangeRequest.project (updateWhere (·.id = id) f s.requests) =
      owns ChangeRequest.id ChangeRequest.project s.requests :=
    owns_updateWhere hid hproject
  simp only [part, updateRequest, mend, ownsComponent, ownsFile, ownsRequest, ownsSnapshot, hrows,
    howns, h, List.filter_nil]

/-- Updates of requests keep what is owned. -/
theorem ownsRequest_updateRequest (s : Store) (id : String) {f : ChangeRequest → ChangeRequest}
    (hid : ∀ r, (f r).id = r.id) (hproject : ∀ r, (f r).project = r.project) :
    (s.updateRequest id f).ownsRequest = s.ownsRequest :=
  owns_updateWhere hid hproject

theorem part_review (h : s.damaged = []) {id : String} (hne : s.ownsRequest q id = false)
    (time : Instant) : (s.review id time).part q = s.part q := by
  rw [review]
  split
  · exact part_updateRequest h (fun _ => rfl) (fun _ => rfl) hne
  · rfl

theorem part_insertImpacts {is : List Impact} (hne : ∀ i ∈ is, s.ownsRequest q i.change = false)
    (h : s.insertImpacts is = .ok t) : t.part q = s.part q := by
  have hrows : is.filter (fun i => s.ownsRequest q i.change) = [] := by
    refine List.filter_eq_nil_iff.mpr fun i hi => ?_
    rw [hne i hi]
    exact Bool.false_ne_true
  rw [eq_of_insertImpacts h]
  simp only [part, List.filter_append]
  rw [show ({ s with impacts := s.impacts ++ is } : Store).ownsRequest = s.ownsRequest from rfl,
    hrows, List.append_nil]
  rfl

theorem part_updateImpacts {p : Impact → Bool} {f : Impact → Impact}
    (hchange : ∀ i, (f i).change = i.change)
    (hne : ∀ i ∈ s.impacts, p i = true → s.ownsRequest q i.change = false) :
    { s with impacts := updateWhere p f s.impacts }.part q = s.part q := by
  have hrows : (updateWhere p f s.impacts).filter (fun i => s.ownsRequest q i.change) =
      s.impacts.filter fun i => s.ownsRequest q i.change :=
    filter_updateWhere_of_not (fun i => by rw [hchange]) hne
  exact congrArg (fun impacts => { s.part q with impacts }) hrows

theorem part_annotate (h : s.damaged = []) {id : String}
    (hne : ∀ i ∈ s.impacts, i.id = id → s.ownsRequest q i.change = false) (comment : Json) :
    (s.annotate id comment).part q = s.part q := by
  have hrows : ({ s with
      impacts := updateWhere (·.id = id) (fun i => { i with comment := some comment })
        s.impacts } : Store).part q = s.part q :=
    part_updateImpacts (fun _ => rfl) fun i hi hid => hne i hi (of_decide_eq_true hid)
  have hcells : s.damaged.filter (fun c => c.column ≠ .comment || !decide (c.row = id)) =
      s.damaged := by
    rw [h, List.filter_nil]
  refine Eq.trans ?_ hrows
  exact congrArg (fun damaged => part q { s with impacts := _, damaged }) hcells

/-! ## Components -/

theorem part_setComponentStatus (h : s.damaged = []) {ids : List String}
    (hne : ∀ id ∈ ids, s.ownsComponent q id = false) (status : ComponentStatus) :
    (s.setComponentStatus ids status).part q = s.part q := by
  have hrows : (updateWhere (fun c => ids.contains c.id) (fun c => { c with status })
      s.components).filter (·.project = q) = s.components.filter (·.project = q) := by
    refine filter_updateWhere_of_not (fun _ => rfl) fun c hc hp => ?_
    exact decide_eq_false (owns_eq_false.mp (hne c.id (List.contains_iff_mem.mp hp)) c hc rfl)
  have howns : owns Component.id Component.project
      (updateWhere (fun c => ids.contains c.id) (fun c => { c with status }) s.components) =
        owns Component.id Component.project s.components :=
    owns_updateWhere (fun _ => rfl) fun _ => rfl
  simp only [part, setComponentStatus, mend, ownsComponent, ownsFile, ownsRequest, ownsSnapshot,
    hrows, howns, h, List.filter_nil]

/-! ## Files and the graph -/

theorem part_reparse {project : String} (hne : project ≠ q) (grammar : Grammar) (o : Objects) :
    (s.reparse grammar o project).part q = s.part q := by
  have hrows : (s.reparse grammar o project).files.filter (·.project = q) =
      s.files.filter (·.project = q) := by
    refine filter_updateWhere_of_not (fun _ => rfl) fun f _ hp => decide_eq_false ?_
    rw [of_decide_eq_true hp]
    exact hne
  have howns : (s.reparse grammar o project).ownsFile = s.ownsFile :=
    owns_updateWhere (fun _ => rfl) fun _ => rfl
  rw [part, hrows, howns]
  rfl

theorem part_withGraph {project : String} (hne : project ≠ q) (g : DependencyGraph) :
    (s.withGraph project g).part q = s.part q := by
  have hedges : (s.withGraph project g).edges.filter (·.project = q) =
      s.edges.filter (·.project = q) := by
    have hnew : (g.edges.map fun e => (⟨project, { e with method := .parser }⟩ : StoredEdge)).filter
        (·.project = q) = [] := by
      simp [List.filter_eq_nil_iff, hne]
    rw [withGraph, List.filter_append, hnew, List.append_nil, clearGraph, List.filter_filter]
    refine List.filter_congr fun e _ => ?_
    by_cases he : e.project = q
    · simp [he, hne.symm]
    · simp [he]
  have hexternal : (s.withGraph project g).external.filter (·.project = q) =
      s.external.filter (·.project = q) := by
    have hnew : (g.external.map fun d => (⟨project, d⟩ : StoredExternal)).filter
        (·.project = q) = [] := by
      simp [List.filter_eq_nil_iff, hne]
    rw [withGraph, List.filter_append, hnew, List.append_nil, clearGraph, List.filter_filter]
    refine List.filter_congr fun d _ => ?_
    by_cases hd : d.project = q
    · simp [hd, hne.symm]
    · simp [hd]
  rw [part, hedges, hexternal]
  rfl

theorem part_index {project : String} (hne : project ≠ q) (grammar : Grammar) (o : Objects) :
    (s.index grammar o project).part q = s.part q :=
  (part_withGraph hne _).trans (part_reparse hne grammar o)

/-! ## Decisions -/

/-- A promotion concerns a file and a draft of other projects. -/
structure Avoids (s : Store) (q : String) (p : PromotedFile) : Prop where
  file : s.ownsFile q p.file = false
  draft : ∀ d ∈ s.drafts, d.id = p.draft → s.ownsFile q d.file = false

theorem ownsFile_promote (s : Store) (p : PromotedFile) : (s.promote p).ownsFile = s.ownsFile :=
  owns_updateWhere (fun _ => rfl) fun _ => rfl

theorem Avoids.promote {p : PromotedFile} (h : s.Avoids q p) (first : PromotedFile) :
    (s.promote first).Avoids q p := by
  constructor
  · rw [ownsFile_promote]
    exact h.file
  · intro d hd hid
    obtain ⟨e, he, rfl⟩ := mem_updateWhere.mp hd
    rw [ownsFile_promote]
    split at hid
    · rw [if_pos ‹_›]
      exact h.draft e he hid
    · rw [if_neg ‹_›]
      exact h.draft e he hid

theorem part_promote (h : s.damaged = []) {p : PromotedFile} (hp : s.Avoids q p) :
    (s.promote p).part q = s.part q := by
  have hfiles : (s.promote p).files.filter (·.project = q) = s.files.filter (·.project = q) := by
    refine filter_updateWhere_of_not (fun _ => rfl) fun f hf hid => decide_eq_false ?_
    exact owns_eq_false.mp hp.file f hf (of_decide_eq_true hid)
  have hdrafts : (s.promote p).drafts.filter (fun d => s.ownsFile q d.file) =
      s.drafts.filter fun d => s.ownsFile q d.file :=
    filter_updateWhere_of_not (fun _ => rfl) fun d hd hid => hp.draft d hd (of_decide_eq_true hid)
  have hdamaged : (s.promote p).damaged = s.damaged := by
    rw [h, promote]
    exact mend_of_readable (by exact h) _ _
  rw [part, hfiles, ownsFile_promote, hdrafts]
  simp only [hdamaged]
  rfl

theorem part_promoteAll (h : s.Intact) {ps : List PromotedFile} (hps : ∀ p ∈ ps, s.Avoids q p) :
    (ps.foldl (fun s p => s.promote p) s).part q = s.part q := by
  induction ps generalizing s with
  | nil => rfl
  | cons p ps ih =>
    have hrest : ∀ p' ∈ ps, (s.promote p).Avoids q p' := fun p' hp' =>
      (hps p' (List.mem_cons_of_mem _ hp')).promote p
    rw [List.foldl_cons, ih (h.promote p) hrest]
    exact part_promote h.readable (hps p (List.mem_cons_self ..))

/-- A new snapshot of another project is not owned, nor are its files. -/
theorem part_takeSnapshot {n : Snapshot} (hne : n.project ≠ q) (h : s.takeSnapshot n = .ok t) :
    t.part q = s.part q := by
  obtain ⟨hk, h⟩ := demand_bind_ok.mp h
  obtain ⟨-, h⟩ := demand_bind_ok.mp h
  cases h
  have howns : owns Snapshot.id Snapshot.project (s.snapshots ++ [n]) q =
      owns Snapshot.id Snapshot.project s.snapshots q :=
    owns_append fun m hm => List.mem_singleton.mp hm ▸ hne
  have hnew : owns Snapshot.id Snapshot.project s.snapshots q n.id = false := by
    refine owns_eq_false.mpr fun m hm hid => ?_
    simp only [Bool.not_eq_true', List.any_eq_false, decide_eq_true_eq] at hk
    exact absurd hid (hk m hm)
  have hfiles : ((s.files.filter (·.project = n.project)).map fun f =>
      (⟨n.id, snapshotFile f⟩ : StoredSnapshotFile)).filter
        (fun f => owns Snapshot.id Snapshot.project s.snapshots q f.snapshot) = [] := by
    refine List.filter_eq_nil_iff.mpr fun row hrow => ?_
    obtain ⟨f, -, rfl⟩ := List.mem_map.mp hrow
    rw [hnew]
    exact Bool.false_ne_true
  simp only [part, ownsComponent, ownsFile, ownsRequest, ownsSnapshot, howns, List.filter_append,
    hfiles, List.append_nil]
  simp [hne]

/-- The result of an analysis is part of the project of its request. -/
theorem part_commitAnalysis (h : s.Intact) {id : String} {is : List Impact}
    {flagged : List String} {time : Instant} (hid : s.ownsRequest q id = false)
    (his : ∀ i ∈ is, i.change = id) (hflagged : ∀ c ∈ flagged, s.ownsComponent q c = false)
    (hc : s.commitAnalysis id is flagged time = .ok (true, t)) : t.part q = s.part q := by
  obtain ⟨u, hu, rfl⟩ := eq_of_commitAnalysis hc
  have hmoved : (s.updateRequest id fun r =>
      { r with status := .analysisComplete, updatedAt := time }).Intact :=
    h.updateRequest (fun _ => rfl) (fun _ => rfl) fun _ => rfl
  have hcomponents : u.ownsComponent = s.ownsComponent := by
    rw [eq_of_insertImpacts hu]
    rfl
  have hrequests := ownsRequest_updateRequest s id
    (f := fun r => { r with status := .analysisComplete, updatedAt := time })
    (fun _ => rfl) fun _ => rfl
  have hstatus : (s.updateRequest id fun r =>
      { r with status := .analysisComplete, updatedAt := time }).part q = s.part q :=
    part_updateRequest h.readable (fun _ => rfl) (fun _ => rfl) hid
  have himpacts : u.part q = s.part q := by
    refine (part_insertImpacts (fun i hi => ?_) hu).trans hstatus
    rw [hrequests, his i hi]
    exact hid
  refine (part_setComponentStatus (hmoved.insertImpacts hu).readable ?_ .flagged).trans himpacts
  rw [hcomponents]
  exact hflagged

theorem ownsRequest_commitAnalysis {id : String} {is : List Impact} {flagged : List String}
    {time : Instant} (hc : s.commitAnalysis id is flagged time = .ok (true, t)) :
    t.ownsRequest = s.ownsRequest := by
  rw [ownsRequest, requests_commitAnalysis hc]
  exact owns_updateWhere (fun _ => rfl) fun _ => rfl

/-- An approval writes to the project of its request. -/
theorem part_commitApproval (h : s.Intact) {c : ApprovalCommit} {snapshot : String}
    (hproject : c.project ≠ q) (hchange : s.ownsRequest q c.change = false)
    (hpromoted : ∀ p ∈ c.promoted, s.Avoids q p)
    (hstable : ∀ k ∈ c.stabilize, s.ownsComponent q k = false)
    (hc : s.commitApproval c snapshot = .ok t) : t.part q = s.part q := by
  have hpromote := h.promoteAll c.promoted
  have hcomponents := promoteAll_eq (f := Store.ownsComponent) (fun _ _ => rfl) c.promoted s
  have hrequests := promoteAll_eq (f := Store.ownsRequest) (fun _ _ => rfl) c.promoted s
  have hreleased := hpromote.setComponentStatus c.stabilize .stable
  have hstatus : ((c.promoted.foldl (fun s p => s.promote p) s).setComponentStatus c.stabilize
      .stable).part q = s.part q := by
    refine Eq.trans (part_setComponentStatus hpromote.readable ?_ .stable) ?_
    · rw [hcomponents]
      exact hstable
    · exact part_promoteAll h hpromoted
  refine (part_takeSnapshot hproject hc).trans (Eq.trans ?_ hstatus)
  refine part_updateRequest hreleased.readable (fun _ => rfl) (fun _ => rfl) ?_
  exact (congrFun (congrFun hrequests q) c.change).trans hchange

/-- A rejection writes to the project of its request. -/
theorem part_commitRejection (h : s.Intact) {change : String} {stabilize : List String}
    (hchange : s.ownsRequest q change = false)
    (hstable : ∀ k ∈ stabilize, s.ownsComponent q k = false) (time : Instant) :
    (s.commitRejection change stabilize time).part q = s.part q := by
  have hreleased := h.setComponentStatus stabilize .stable
  have hclose : (s.commitRejection change stabilize time).part q =
      (s.setComponentStatus stabilize .stable).part q :=
    part_updateRequest hreleased.readable (fun _ => rfl) (fun _ => rfl) hchange
  exact hclose.trans (part_setComponentStatus h.readable hstable .stable)

end ChangeImpact.Store
