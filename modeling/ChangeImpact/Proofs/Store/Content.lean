import ChangeImpact.Proofs.Graph.Stored
import ChangeImpact.Proofs.Store.Promoted
import ChangeImpact.Proofs.Workflow.Indexed
import ChangeImpact.Proofs.Workflow.Outcomes

/-!
# What statements do to the content

The content of the tables is what reviews are about: the projects, the drafts, the files
apart from their symbols, and the files of the snapshots. Most statements leave it as it
is, together with the components and with the impacts as they were found. The others are
uploads and approvals, and what these write is said row by row.
-/

namespace ChangeImpact

/-- The file without its symbols. -/
def ProjectFile.unparsed (f : ProjectFile) : ProjectFile := { f with symbols := none }

/-- The impact as it was found, without what was said about it since. -/
def Impact.found (i : Impact) : Impact :=
  { i with
    acknowledged := false, dismissed := false, autoConfirmed := false
    acknowledgedAt := none, comment := none }

/-- The draft after a promotion of some drafts, which may be others. -/
def Draft.promote (ps : List PromotedFile) (d : Draft) : Draft :=
  if ps.any (·.draft = d.id) then { d with active := false } else d

section Draft

variable {ps : List PromotedFile} {d : Draft}

theorem Draft.promote_of_mem {p : PromotedFile} (hp : p ∈ ps) (hid : p.draft = d.id) :
    d.promote ps = { d with active := false } :=
  if_pos (List.any_eq_true.mpr ⟨p, hp, decide_eq_true hid⟩)

theorem Draft.promote_cases (ps : List PromotedFile) (d : Draft) :
    (∃ p ∈ ps, p.draft = d.id) ∧ d.promote ps = { d with active := false } ∨ d.promote ps = d := by
  by_cases hp : ∃ p ∈ ps, p.draft = d.id
  · obtain ⟨p, hm, hid⟩ := hp
    exact Or.inl ⟨⟨p, hm, hid⟩, promote_of_mem hm hid⟩
  · refine Or.inr (if_neg fun hany => hp ?_)
    obtain ⟨p, hm, hid⟩ := List.any_eq_true.mp hany
    exact ⟨p, hm, of_decide_eq_true hid⟩

theorem Draft.id_promote (ps : List PromotedFile) (d : Draft) : (d.promote ps).id = d.id := by
  rw [promote]
  split <;> rfl

theorem Draft.promote_of_inactive (h : d.active = false) : d.promote ps = d := by
  rcases promote_cases ps d with ⟨-, heq⟩ | heq
  · rw [heq, ← h]
  · exact heq

end Draft

namespace Store

/-- The content of the tables is the same. -/
structure SameContent (s t : Store) : Prop where
  projects : t.projects = s.projects
  drafts : t.drafts = s.drafts
  files : t.files.map (·.unparsed) = s.files.map (·.unparsed)
  snapshotFiles : t.snapshotFiles = s.snapshotFiles

/-- Besides, the components are the same and the impacts are as they were found. -/
structure Alike (s t : Store) : Prop extends SameContent s t where
  components : t.components = s.components
  impacts : t.impacts.map (·.found) = s.impacts.map (·.found)

instance : IsPreorder Store Alike where
  refl _ := ⟨⟨rfl, rfl, rfl, rfl⟩, rfl, rfl⟩
  trans _ _ _ h h' :=
    ⟨⟨h'.projects.trans h.projects, h'.drafts.trans h.drafts, h'.files.trans h.files,
      h'.snapshotFiles.trans h.snapshotFiles⟩, h'.components.trans h.components,
      h'.impacts.trans h.impacts⟩

variable {s t : Store}

/-- Apart from its symbols a file was there before. -/
theorem SameContent.exists_file (h : SameContent s t) {f : ProjectFile} (hf : f ∈ t.files) :
    ∃ g ∈ s.files, g.unparsed = f.unparsed :=
  List.mem_map.mp (h.files ▸ List.mem_map_of_mem hf)

/-! ## Statements that leave the content alone -/

theorem alike_addContributor {c : Contributor} (h : s.addContributor c = .ok t) : Alike s t := by
  rw [addContributor] at h
  split at h
  · cases h
    exact ⟨⟨rfl, rfl, rfl, rfl⟩, rfl, rfl⟩
  · obtain ⟨-, h⟩ := demand_bind_ok.mp h
    cases h
    exact ⟨⟨rfl, rfl, rfl, rfl⟩, rfl, rfl⟩

theorem alike_upsertEdge {project : String} {e : DependencyEdge}
    (h : s.upsertEdge project e = .ok t) : Alike s t := by
  obtain ⟨-, h⟩ := demand_bind_ok.mp h
  split at h
  · cases h
    exact ⟨⟨rfl, rfl, rfl, rfl⟩, rfl, rfl⟩
  · obtain ⟨-, h⟩ := demand_bind_ok.mp h
    obtain ⟨-, h⟩ := demand_bind_ok.mp h
    obtain ⟨-, h⟩ := demand_bind_ok.mp h
    cases h
    exact ⟨⟨rfl, rfl, rfl, rfl⟩, rfl, rfl⟩

theorem alike_insertRequest {r : ChangeRequest} (h : s.insertRequest r = .ok t) : Alike s t := by
  obtain ⟨-, h⟩ := demand_bind_ok.mp h
  obtain ⟨-, h⟩ := demand_bind_ok.mp h
  cases h
  exact ⟨⟨rfl, rfl, rfl, rfl⟩, rfl, rfl⟩

theorem alike_setStatus {id : String} {status : ChangeStatus} {now : Instant}
    (h : s.setStatus id status now = .ok t) : Alike s t := by
  rw [eq_of_setStatus h]
  exact ⟨⟨rfl, rfl, rfl, rfl⟩, rfl, rfl⟩

theorem alike_review (s : Store) (id : String) (time : Instant) : Alike s (s.review id time) := by
  rw [review]
  split
  · exact ⟨⟨rfl, rfl, rfl, rfl⟩, rfl, rfl⟩
  · exact refl_of Alike s

/-- What is said about an impact does not count. -/
theorem alike_updateImpacts {p : Impact → Bool} {f : Impact → Impact} (cells : List Cell)
    (hf : ∀ i, (f i).found = i.found) :
    Alike s { s with impacts := updateWhere p f s.impacts, damaged := cells } :=
  ⟨⟨rfl, rfl, rfl, rfl⟩, rfl, map_updateWhere (fun i _ => hf i) s.impacts⟩

theorem alike_index (grammar : Grammar) (o : Objects) (project : String) (s : Store) :
    Alike s (s.index grammar o project) := by
  have hfiles : (s.reparse grammar o project).files.map (·.unparsed) = s.files.map (·.unparsed) :=
    map_updateWhere (by exact fun _ _ => rfl) s.files
  exact ⟨⟨rfl, rfl, hfiles, rfl⟩, rfl, rfl⟩

theorem alike_withGraph (project : String) (g : DependencyGraph) (s : Store) :
    Alike s (s.withGraph project g) :=
  ⟨⟨rfl, rfl, rfl, rfl⟩, rfl, rfl⟩

/-! ## Uploads -/

/-- A file is stored in place of the one at its path; the others stay. -/
theorem mem_files_upsertFile {f g : ProjectFile} {id : String}
    (h : s.upsertFile f = .ok (id, t)) (hg : g ∈ t.files) :
    g ∈ s.files ∧ samePlace f g = false ∨ ∃ k, g = { f with id := k } := by
  rw [upsertFile] at h
  split at h
  · obtain ⟨-, h⟩ := demand_bind_ok.mp h
    cases h
    obtain ⟨old, hold, rfl⟩ := mem_updateWhere.mp hg
    by_cases hp : samePlace f old = true
    · rw [if_pos hp]
      exact Or.inr ⟨old.id, rfl⟩
    · rw [if_neg hp]
      exact Or.inl ⟨hold, Bool.eq_false_iff.mpr hp⟩
  · rename_i hnone
    obtain ⟨-, h⟩ := demand_bind_ok.mp h
    obtain ⟨-, h⟩ := demand_bind_ok.mp h
    cases h
    rcases List.mem_append.mp hg with hg | hg
    · exact Or.inl ⟨hg, Bool.eq_false_iff.mpr (List.find?_eq_none.mp hnone g hg)⟩
    · exact Or.inr ⟨f.id, List.mem_singleton.mp hg⟩

/-- Nothing but the file is written. -/
theorem eq_of_upsertFile {f : ProjectFile} {id : String} (h : s.upsertFile f = .ok (id, t)) :
    t = { s with files := t.files, damaged := t.damaged } := by
  rw [upsertFile] at h
  split at h
  · obtain ⟨-, h⟩ := demand_bind_ok.mp h
    cases h
    rfl
  · obtain ⟨-, h⟩ := demand_bind_ok.mp h
    obtain ⟨-, h⟩ := demand_bind_ok.mp h
    cases h
    rfl

/-- A file whose component is there can always be stored in place of another one. -/
theorem exists_upsertFile {f g : ProjectFile} (ho : s.ownerExists f = true) (hg : g ∈ s.files)
    (hp : samePlace f g = true) : ∃ id t, s.upsertFile f = .ok (id, t) := by
  rw [upsertFile]
  split
  · exact ⟨_, _, demand_bind_ok.mpr ⟨ho, rfl⟩⟩
  · rename_i hnone
    exact absurd hp (List.find?_eq_none.mp hnone g hg)

/-! ## Approvals -/

section Approval

variable {c : ApprovalCommit} {snapshot : String}

theorem drafts_promoteAll (ps : List PromotedFile) (s : Store) :
    (ps.foldl (fun s p => s.promote p) s).drafts = s.drafts.map (·.promote ps) := by
  induction ps generalizing s with
  | nil => exact (List.map_id s.drafts).symm
  | cons p ps ih =>
    rw [List.foldl_cons, ih]
    refine (List.map_map ..).trans (List.map_congr_left fun d _ => ?_)
    by_cases hp : p.draft = d.id
    · by_cases hps : ps.any (·.draft = d.id) = true
      · simp [Draft.promote, hp, hps]
      · simp [Draft.promote, hp]
    · simp [Draft.promote, hp, Ne.symm hp]

theorem drafts_commitApproval (h : s.commitApproval c snapshot = .ok t) :
    t.drafts = s.drafts.map (·.promote c.promoted) := by
  obtain ⟨_, _, rfl⟩ := eq_of_commitApproval h
  exact drafts_promoteAll c.promoted s

theorem components_commitApproval (h : s.commitApproval c snapshot = .ok t) :
    t.components = updateWhere (fun k => c.stabilize.contains k.id)
      (fun k => { k with status := .stable }) s.components := by
  obtain ⟨_, _, rfl⟩ := eq_of_commitApproval h
  exact congrArg (updateWhere _ _)
    (promoteAll_eq (f := Store.components) (fun _ _ => rfl) c.promoted s)

theorem requests_commitApproval (h : s.commitApproval c snapshot = .ok t) :
    t.requests = updateWhere (·.id = c.change)
      (fun r => { r with
        status := .approved, updatedAt := c.resolvedAt, resolvedAt := some c.resolvedAt })
      s.requests := by
  obtain ⟨_, _, rfl⟩ := eq_of_commitApproval h
  exact congrArg (updateWhere _ _)
    (promoteAll_eq (f := Store.requests) (fun _ _ => rfl) c.promoted s)

theorem impacts_commitApproval (h : s.commitApproval c snapshot = .ok t) :
    t.impacts = s.impacts := by
  obtain ⟨_, _, rfl⟩ := eq_of_commitApproval h
  exact promoteAll_eq (f := Store.impacts) (fun _ _ => rfl) c.promoted s

/-- An approval is written if its project and its request are there and its snapshot is new. -/
theorem exists_commitApproval (hfresh : ∀ n ∈ s.snapshots, n.id ≠ snapshot)
    (hp : ∃ p ∈ s.projects, p.id = c.project) (hr : ∃ r ∈ s.requests, r.id = c.change) :
    ∃ t, s.commitApproval c snapshot = .ok t := by
  refine ⟨_, demand_bind_ok.mpr ⟨?_, demand_bind_ok.mpr ⟨?_, rfl⟩⟩⟩
  · rw [Bool.not_eq_true', List.any_eq_false]
    intro n hn hid
    have hsame := promoteAll_eq (f := Store.snapshots) (fun _ _ => rfl) c.promoted s
    exact hfresh n (hsame ▸ hn) (of_decide_eq_true hid)
  · have hprojects := promoteAll_eq (f := Store.projects) (fun _ _ => rfl) c.promoted s
    have hrequests := promoteAll_eq (f := Store.requests) (fun _ _ => rfl) c.promoted s
    obtain ⟨p, hp, hpid⟩ := hp
    obtain ⟨r, hr, hrid⟩ := hr
    rw [Bool.and_eq_true, Option.all_some]
    refine ⟨hasProject_iff.mpr ⟨p, hprojects.symm ▸ hp, hpid⟩, hasRequest_iff.mpr
      ⟨_, mem_updateWhere.mpr ⟨r, hrequests.symm ▸ hr, rfl⟩, ?_⟩⟩
    rw [apply_ite ChangeRequest.id, ite_self]
    exact hrid

/-- The snapshot of an approval is new. -/
theorem snapshots_commitApproval (h : s.commitApproval c snapshot = .ok t) :
    (∀ n ∈ s.snapshots, n.id ≠ snapshot) ∧
      t.snapshots = s.snapshots ++ [
        { id := snapshot, project := c.project, change := some c.change
          createdAt := c.resolvedAt }] := by
  obtain ⟨hfree, h⟩ := demand_bind_ok.mp h
  obtain ⟨-, h⟩ := demand_bind_ok.mp h
  cases h
  have hsame := promoteAll_eq (f := Store.snapshots) (fun _ _ => rfl) c.promoted s
  refine ⟨fun n hn hid => ?_, congrArg (· ++ _) hsame⟩
  rw [Bool.not_eq_true', List.any_eq_false] at hfree
  exact hfree n (hsame.symm ▸ hn) (decide_eq_true hid)

/-- The snapshot holds the files of the project as the approval leaves them. -/
theorem snapshotFiles_commitApproval (h : s.commitApproval c snapshot = .ok t) :
    t.snapshotFiles = s.snapshotFiles ++ (t.files.filter (·.project = c.project)).map fun f =>
      ⟨snapshot, snapshotFile f⟩ := by
  obtain ⟨-, h⟩ := demand_bind_ok.mp h
  obtain ⟨-, h⟩ := demand_bind_ok.mp h
  cases h
  have hsame := promoteAll_eq (f := Store.snapshotFiles) (fun _ _ => rfl) c.promoted s
  exact congrArg (· ++ _) hsame

end Approval

end Store

end ChangeImpact
