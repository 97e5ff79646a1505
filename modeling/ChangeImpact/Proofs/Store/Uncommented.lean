import ChangeImpact.Proofs.Ordered
import ChangeImpact.Proofs.Store.Rows
import ChangeImpact.Store.Decisions
import ChangeImpact.Store.Graph

/-!
# Tables without comments

What a language model says about an impact stands in a column of its own. Nothing that is
read from the tables depends on it but that column itself, and nothing that is written
does: reading and writing go the same way when all comments are left out.
-/

namespace ChangeImpact

/-- The impact without what a language model said about it. -/
def Impact.uncommented (i : Impact) : Impact := { i with comment := none }

namespace Store

variable {s : Store}

/-- The tables without comments. -/
def uncommented (s : Store) : Store :=
  { s with impacts := s.impacts.map (·.uncommented) }

/-! ## Reading -/

section Rows

variable {α : Type} {g : α → α} {id : α → String} (columns : List Column)

theorem readRows_map (hg : ∀ r, id (g r) = id r) (rows : List α) :
    s.uncommented.readRows columns id (rows.map g) =
      (s.readRows columns id rows).map (List.map g) := by
  have hsame : (fun r => s.uncommented.isReadable columns (id r)) ∘ g =
      fun r => s.isReadable columns (id r) := by
    funext r
    rw [Function.comp_apply, hg]
    rfl
  rw [readRows, readRows, List.all_map, hsame]
  split <;> rfl

theorem readFirst_map (hg : ∀ r, id (g r) = id r) (row : Option α) :
    s.uncommented.readFirst columns id (row.map g) =
      (s.readFirst columns id row).map (Option.map g) := by
  cases row with
  | none => rfl
  | some r =>
    rw [Option.map_some, readFirst, readFirst, hg]
    change (if s.isReadable columns (id r) then _ else _) = _
    split <;> rfl

end Rows

theorem impact?_uncommented (id : String) :
    s.uncommented.impact? id = (s.impact? id).map (Option.map (·.uncommented)) := by
  have hfind : s.uncommented.impacts.find? (·.id = id) =
      (s.impacts.find? (·.id = id)).map (·.uncommented) := List.find?_map ..
  rw [impact?, hfind]
  exact readFirst_map (g := Impact.uncommented) impactColumns (fun _ => rfl) _

/-- The impacts of a request, without comments. -/
private theorem filter_change_uncommented (change : String) :
    s.uncommented.impacts.filter (·.change = change) =
      (s.impacts.filter (·.change = change)).map (·.uncommented) :=
  List.filter_map

theorem impactsOf_uncommented (change : String) :
    s.uncommented.impactsOf change = (s.impactsOf change).map (List.map (·.uncommented)) := by
  rw [impactsOf, filter_change_uncommented,
    Ordered.sortBy_map (g := Impact.uncommented) fun _ _ => rfl]
  exact readRows_map (g := Impact.uncommented) impactColumns (fun _ => rfl) _

theorem affectedBy_uncommented (change : String) :
    s.uncommented.affectedBy change = s.affectedBy change := by
  rw [affectedBy, filter_change_uncommented, List.map_map]
  rfl

theorem openImpacts_uncommented :
    s.uncommented.openImpacts =
      s.openImpacts.map (List.map fun x => (x.1.uncommented, x.2)) := by
  let plain (x : Impact × Instant) : Impact × Instant := (x.1.uncommented, x.2)
  have hopen : (s.uncommented.impacts.filter (!·.isResolved)).filterMap (fun i =>
      (s.uncommented.openRequestOf i).map fun r => (i, r.createdAt)) =
      ((s.impacts.filter (!·.isResolved)).filterMap fun i =>
        (s.openRequestOf i).map fun r => (i, r.createdAt)).map plain := by
    have hfilter : s.uncommented.impacts.filter (!·.isResolved) =
        (s.impacts.filter (!·.isResolved)).map (·.uncommented) := List.filter_map
    rw [hfilter, List.filterMap_map, List.map_filterMap]
    refine List.filterMap_congr fun i _ => ?_
    rw [Option.map_map]
    rfl
  rw [openImpacts, hopen, Ordered.sortBy_map (g := plain) fun _ _ => rfl]
  exact readRows_map (g := plain) impactColumns (fun _ => rfl) _

/-! ## Writing -/

/-- A write that neither looks at comments nor touches them. -/
def Overlooks (f : Store → Except Failure Store) : Prop :=
  ∀ s, f s.uncommented = (f s).map (·.uncommented)

/-- The same of a write with an answer. -/
def OverlooksWith {α : Type} (f : Store → Except Failure (α × Store)) : Prop :=
  ∀ s, f s.uncommented = (f s).map fun x => (x.1, x.2.uncommented)

theorem demand_bind_map {α β : Type} (c : Bool) (e : Failure) (k : Unit → Except Failure α)
    (g : α → β) : (demand c e >>= k).map g = demand c e >>= fun x => (k x).map g := by
  cases c <;> rfl

theorem foldlM_uncommented {α : Type} {f : Store → α → Except Failure Store} {xs : List α}
    (hf : ∀ x ∈ xs, Overlooks fun s => f s x) (s : Store) :
    xs.foldlM f s.uncommented = (xs.foldlM f s).map (·.uncommented) := by
  induction xs generalizing s with
  | nil => rfl
  | cons x xs ih =>
    have hfirst : f s.uncommented x = (f s x).map (·.uncommented) := hf x (List.mem_cons_self ..) s
    rw [List.foldlM_cons, List.foldlM_cons, hfirst]
    cases f s x with
    | error e => rfl
    | ok t => exact ih (fun y hy => hf y (List.mem_cons_of_mem _ hy)) t

theorem overlooks_insertProject (p : Project) : Overlooks (insertProject p) := by
  intro s
  rw [insertProject, insertProject, demand_bind_map]
  rfl

theorem overlooks_insertComponent (c : Component) : Overlooks (insertComponent c) := by
  intro s
  simp only [insertComponent, demand_bind_map]
  rfl

theorem overlooks_addContributor (c : Contributor) : Overlooks (addContributor c) := by
  intro s
  rw [addContributor, addContributor]
  change (if s.contributors.any _ = true then _ else _) = _
  split
  · rfl
  · rw [demand_bind_map]
    rfl

theorem overlooks_upsertFile (f : ProjectFile) : OverlooksWith (upsertFile f) := by
  intro s
  have hfind : s.uncommented.files.find? (samePlace f) = s.files.find? (samePlace f) := rfl
  rw [upsertFile, upsertFile, hfind]
  cases s.files.find? (samePlace f) with
  | none =>
    simp only [demand_bind_map]
    rfl
  | some old =>
    simp only [demand_bind_map]
    rfl

theorem overlooks_insertDraft (d : Draft) : Overlooks (insertDraft d) := by
  intro s
  simp only [insertDraft, demand_bind_map]
  rfl

theorem overlooks_setSymbols (id : String) (symbols : Option ParsedFile) :
    Overlooks (setSymbols id symbols) := by
  intro s
  rw [setSymbols, setSymbols, demand_bind_map]
  rfl

theorem overlooks_insertEdge (project : String) (e : DependencyEdge) :
    Overlooks (insertEdge project e) := by
  intro s
  simp only [insertEdge, demand_bind_map]
  rfl

theorem overlooks_insertExternal (project : String) (d : ExternalDependency) :
    Overlooks (insertExternal project d) := by
  intro s
  rw [insertExternal, insertExternal, demand_bind_map]
  rfl

theorem overlooks_upsertEdge (project : String) (e : DependencyEdge) :
    Overlooks (upsertEdge project e) := by
  intro s
  rw [upsertEdge, upsertEdge, demand_bind_map]
  congr 1
  funext _
  change (if s.edges.any (connects project e) = true then _ else _) = _
  split
  · rfl
  · exact overlooks_insertEdge project e s

theorem overlooks_replaceGraph (project : String) (g : DependencyGraph) :
    Overlooks (replaceGraph project g) := by
  intro s
  let add (t : Store) (e : DependencyEdge) : Except Failure Store :=
    t.insertEdge project { e with method := .parser }
  have hedges : g.edges.foldlM add (s.uncommented.clearGraph project) =
      (g.edges.foldlM add (s.clearGraph project)).map (·.uncommented) :=
    foldlM_uncommented (fun e _ => overlooks_insertEdge project { e with method := .parser })
      (s.clearGraph project)
  change (g.edges.foldlM add (s.uncommented.clearGraph project) >>= _) =
    (g.edges.foldlM add (s.clearGraph project) >>= _).map _
  rw [hedges]
  cases g.edges.foldlM add (s.clearGraph project) with
  | error e => rfl
  | ok t => exact foldlM_uncommented (fun d _ => overlooks_insertExternal project d) t

theorem overlooks_insertRequest (r : ChangeRequest) : Overlooks (insertRequest r) := by
  intro s
  simp only [insertRequest, demand_bind_map]
  rfl

theorem overlooks_setStatus (id : String) (status : ChangeStatus) (now : Instant) :
    Overlooks (setStatus id status now) := by
  intro s
  rw [setStatus, setStatus, demand_bind_map]
  rfl

/-- An impact without a comment can be added. -/
theorem overlooks_insertImpact {i : Impact} (hi : i.comment = none) :
    Overlooks (insertImpact i) := by
  intro s
  have hany : s.uncommented.impacts.any (·.id = i.id) = s.impacts.any (·.id = i.id) := by
    rw [uncommented, List.any_map]
    rfl
  have hadd : s.uncommented.impacts ++ [i] = (s.impacts ++ [i]).map (·.uncommented) := by
    have hplain : i.uncommented = i := by
      rw [Impact.uncommented, ← hi]
    rw [List.map_append, List.map_singleton, hplain]
    rfl
  simp only [insertImpact, demand_bind_map, hany, hadd]
  rfl

theorem overlooks_commitAnalysis (id : String) {is : List Impact}
    (hi : ∀ i ∈ is, i.comment = none) (flagged : List String) (now : Instant) :
    OverlooksWith (commitAnalysis id is flagged now) := by
  intro s
  let claimed := s.updateRequest id fun r => { r with status := .analysisComplete, updatedAt := now }
  have hinsert : claimed.uncommented.insertImpacts is =
      (claimed.insertImpacts is).map (·.uncommented) :=
    foldlM_uncommented (fun i hmem => overlooks_insertImpact (hi i hmem)) claimed
  rw [commitAnalysis, commitAnalysis]
  change (if (s.requests.any fun r => r.id = id && s.statusIs r .pendingAnalysis) = true then
    claimed.uncommented.insertImpacts is >>= _ else _) = _
  rw [hinsert]
  split
  · change _ = Except.map _ (claimed.insertImpacts is >>= _)
    cases claimed.insertImpacts is <;> rfl
  · rfl

/-- An impact is resolved, and found open, whatever was said about it. -/
theorem resolveImpact_uncommented (id : String) {f : Impact → Impact}
    (hf : ∀ i, f i.uncommented = (f i).uncommented) :
    s.uncommented.resolveImpact id f =
      ((s.resolveImpact id f).1, (s.resolveImpact id f).2.uncommented) := by
  let isOpen (i : Impact) : Bool := i.id = id && !i.isResolved
  have hany : s.uncommented.impacts.any isOpen = s.impacts.any isOpen := by
    rw [uncommented, List.any_map]
    rfl
  have hupdate : updateWhere isOpen f s.uncommented.impacts =
      (updateWhere isOpen f s.impacts).map (·.uncommented) := by
    rw [uncommented, updateWhere, updateWhere, List.map_map, List.map_map]
    refine List.map_congr_left fun i _ => ?_
    change (if isOpen i then f i.uncommented else i.uncommented) =
      (if isOpen i then f i else i).uncommented
    rw [hf]
    split <;> rfl
  change (s.uncommented.impacts.any isOpen,
    { s.uncommented with impacts := updateWhere isOpen f s.uncommented.impacts }) = _
  rw [hany, hupdate]
  rfl

theorem overlooks_acknowledge (id : String) (time : Instant) (auto : Bool) :
    OverlooksWith fun s => .ok (s.acknowledge id time auto) :=
  fun _ => congrArg Except.ok (resolveImpact_uncommented id fun _ => rfl)

theorem overlooks_dismiss (id : String) (time : Instant) :
    OverlooksWith fun s => .ok (s.dismiss id time) :=
  fun _ => congrArg Except.ok (resolveImpact_uncommented id fun _ => rfl)

theorem overlooks_commitApproval (c : ApprovalCommit) (snapshot : String) :
    Overlooks (commitApproval c snapshot) := by
  intro s
  have hpromoted : c.promoted.foldl (fun s p => s.promote p) s.uncommented =
      (c.promoted.foldl (fun s p => s.promote p) s).uncommented :=
    List.foldl_hom uncommented fun _ _ => rfl
  rw [commitApproval, commitApproval, hpromoted]
  simp only [takeSnapshot, demand_bind_map]
  rfl

/-- Where all comments can be read, a comment changes only itself. -/
theorem uncommented_annotate (h : s.damaged = []) (id : String) (comment : Json) :
    (s.annotate id comment).uncommented = s.uncommented := by
  let write (i : Impact) : Impact := { i with comment := some comment }
  let written : List Impact := updateWhere (·.id = id) write s.impacts
  have himpacts : written.map (·.uncommented) = s.impacts.map (·.uncommented) :=
    map_updateWhere (f := write) (g := Impact.uncommented) (fun _ _ => rfl) s.impacts
  have hmended : s.annotate id comment = { s with impacts := written } :=
    mend_eq_self (s := { s with impacts := written }) h .comment (· = id)
  rw [hmended, uncommented, uncommented, himpacts]

theorem overlooks_commitRejection (change : String) (now : Instant) :
    Overlooks fun s => .ok (s.commitRejection change (s.affectedBy change) now) := by
  intro s
  change Except.ok (s.uncommented.commitRejection change (s.uncommented.affectedBy change) now) = _
  rw [affectedBy_uncommented]
  rfl

end Store

end ChangeImpact
