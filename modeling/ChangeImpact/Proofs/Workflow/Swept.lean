import ChangeImpact.Proofs.Workflow.Agreement
import ChangeImpact.Proofs.Workflow.Flags

/-!
# What a sweep does

A sweep acknowledges the open impacts of the undecided requests that are old enough, and
nothing else is said about any impact. The requests of these impacts are left without open
impacts and move on to review, because in a reachable world only an analysed request has open
impacts. Another sweep up to the same time finds nothing to do.
-/

namespace ChangeImpact

open Operation

/-! ## Aged impacts -/

/-- An open impact of an undecided request that was made at `cutoff` or before. -/
def Store.Ages (s : Store) (cutoff : Instant) (i : Impact) : Prop :=
  i.isResolved = false ∧
    ∃ r ∈ s.requests, r.id = i.change ∧ r.status.isTerminal = false ∧ r.createdAt ≤ cutoff

instance (s : Store) (cutoff : Instant) : DecidablePred (s.Ages cutoff) :=
  fun i => inferInstanceAs (Decidable (i.isResolved = false ∧
    ∃ r ∈ s.requests, r.id = i.change ∧ r.status.isTerminal = false ∧ r.createdAt ≤ cutoff))

section Listing

variable {s : Store}

/-- The request of an impact is listed with it unless it is decided. -/
theorem Store.Intact.openRequestOf_eq_some_iff (h : s.Intact) {i : Impact} {r : ChangeRequest} :
    s.openRequestOf i = some r ↔
      r ∈ s.requests ∧ r.id = i.change ∧ r.status.isTerminal = false := by
  have hopen : (!(s.statusIs r .approved || s.statusIs r .rejected)) = true ↔
      r.status.isTerminal = false := by
    simp only [statusIs, isReadable_of_readable h.readable, Bool.and_true]
    cases r.status <;> decide
  rw [openRequestOf, Option.filter_eq_some_iff, hopen, h.requestIds.find?_eq_some_iff, and_assoc]

/-- An impact is listed with the time at which its request was made. -/
theorem Store.Intact.listed_iff (h : s.Intact) {i : Impact} {x : Impact × Instant} :
    (s.openRequestOf i).map (fun r => (i, r.createdAt)) = some x ↔
      i = x.1 ∧ ∃ r ∈ s.requests, r.id = x.1.change ∧ r.status.isTerminal = false ∧
        r.createdAt = x.2 := by
  rw [Option.map_eq_some_iff]
  constructor
  · rintro ⟨r, hr, rfl⟩
    obtain ⟨hmem, hid, hs⟩ := h.openRequestOf_eq_some_iff.mp hr
    exact ⟨rfl, r, hmem, hid, hs, rfl⟩
  · rintro ⟨rfl, r, hmem, hid, hs, ht⟩
    exact ⟨r, h.openRequestOf_eq_some_iff.mpr ⟨hmem, hid, hs⟩, Prod.ext rfl ht⟩

/-- In an intact store the open impacts of undecided requests are listed, each once. -/
theorem Store.Intact.openImpacts_eq (h : s.Intact) :
    ∃ found, s.openImpacts = .ok found ∧ (found.map (·.1.id)).Nodup ∧
      ∀ x : Impact × Instant, x ∈ found ↔ x.1 ∈ s.impacts ∧ x.1.isResolved = false ∧
        ∃ r ∈ s.requests, r.id = x.1.change ∧ r.status.isTerminal = false ∧
          r.createdAt = x.2 := by
  refine ⟨_, readRows_of_readable h.readable _, ?_, fun x => ?_⟩
  · refine List.Nodup.map_on (fun x hx y hy hid => ?_) (((List.mergeSort_perm _ _).nodup_iff).mpr
      (List.Nodup.filterMap (fun i j x hi hj => ?_)
        ((List.Nodup.of_map _ h.impactIds).filter _)))
    · rw [Ordered.mem_sortBy, List.mem_filterMap] at hx hy
      obtain ⟨i, hi, hx⟩ := hx
      obtain ⟨j, hj, hy⟩ := hy
      have hij : i = j := h.impactIds.eq_of_key_eq (List.mem_of_mem_filter hi)
        (List.mem_of_mem_filter hj) ((h.listed_iff.mp hx).1 ▸ (h.listed_iff.mp hy).1 ▸ hid)
      rw [hij, hy] at hx
      exact (Option.some.inj hx).symm
    · exact (h.listed_iff.mp hi).1.trans (h.listed_iff.mp hj).1.symm
  · rw [Ordered.mem_sortBy, List.mem_filterMap]
    constructor
    · rintro ⟨i, hi, hx⟩
      obtain ⟨rfl, hrequest⟩ := h.listed_iff.mp hx
      obtain ⟨hmem, hopen⟩ := List.mem_filter.mp hi
      exact ⟨hmem, by simpa using hopen, hrequest⟩
    · rintro ⟨hmem, hopen, hrequest⟩
      exact ⟨x.1, List.mem_filter.mpr ⟨hmem, by simpa using hopen⟩,
        h.listed_iff.mpr ⟨rfl, hrequest⟩⟩

/-- A list has the aged impacts, each once. -/
structure Store.ListsAged (s : Store) (cutoff : Instant) (aged : List (Impact × Instant)) :
    Prop where
  nodup : (aged.map (·.1.id)).Nodup
  mem_iff : ∀ i, (∃ x ∈ aged, x.1 = i) ↔ i ∈ s.impacts ∧ s.Ages cutoff i

/-- The listed impacts that a sweep up to a time goes for are the aged ones. -/
theorem Store.Intact.listsAged (h : s.Intact) (cutoff : Instant) :
    ∃ found, s.openImpacts = .ok found ∧
      s.ListsAged cutoff (found.filter fun x => decide (x.2 ≤ cutoff)) := by
  obtain ⟨found, hfound, hnodup, hmem⟩ := h.openImpacts_eq
  refine ⟨found, hfound, (List.filter_sublist.map _).nodup hnodup, fun i => ?_⟩
  constructor
  · rintro ⟨x, hx, rfl⟩
    obtain ⟨hx, hcutoff⟩ := List.mem_filter.mp hx
    obtain ⟨hi, hopen, r, hr, hid, hs, ht⟩ := (hmem x).mp hx
    exact ⟨hi, hopen, r, hr, hid, hs, ht ▸ of_decide_eq_true hcutoff⟩
  · rintro ⟨hi, hopen, r, hr, hid, hs, ht⟩
    exact ⟨(i, r.createdAt), List.mem_filter.mpr
      ⟨(hmem _).mpr ⟨hi, hopen, r, hr, hid, hs, rfl⟩, decide_eq_true ht⟩, rfl⟩

variable {cutoff : Instant} {aged : List (Impact × Instant)}

theorem Store.ListsAged.of_mem (h : s.ListsAged cutoff aged) {x : Impact × Instant}
    (hx : x ∈ aged) : x.1 ∈ s.impacts ∧ s.Ages cutoff x.1 :=
  (h.mem_iff x.1).mp ⟨x, hx, rfl⟩

/-- There are as many as are aged. -/
theorem Store.ListsAged.length_eq (h : s.ListsAged cutoff aged) (hs : Keyed (·.id) s.impacts) :
    aged.length = s.impacts.countP (s.Ages cutoff) := by
  rw [List.countP_eq_length_filter, ← List.length_map (·.1)]
  refine List.Perm.length_eq ((List.perm_ext_iff_of_nodup ?_ ?_).mpr fun i => ?_)
  · exact List.Nodup.of_map (·.id) (by rw [List.map_map]; exact h.nodup)
  · exact (List.Nodup.of_map _ hs).filter _
  · rw [List.mem_map, h.mem_iff, List.mem_filter, decide_eq_true_eq]

/-- The requests of what is listed are those that have an aged impact. -/
theorem Store.ListsAged.mem_requests (h : s.ListsAged cutoff aged) {id : String} :
    id ∈ Ordered.ofList (aged.map (·.1.change)) ↔
      ∃ i ∈ s.impacts, s.Ages cutoff i ∧ i.change = id := by
  rw [Ordered.mem_ofList, List.mem_map]
  constructor
  · rintro ⟨x, hx, rfl⟩
    exact ⟨x.1, (h.of_mem hx).1, (h.of_mem hx).2, rfl⟩
  · rintro ⟨i, hi, haged, rfl⟩
    obtain ⟨x, hx, rfl⟩ := (h.mem_iff i).mpr ⟨hi, haged⟩
    exact ⟨x, hx, rfl⟩

end Listing

/-! ## Acknowledging -/

section Acknowledging

variable {w : World} {time : Instant}

/-- The impacts of some identifiers acknowledged for their age. -/
def Store.confirm (time : Instant) (ids : List String) (s : Store) : Store :=
  { s with
    impacts := updateWhere (fun i => decide (i.id ∈ ids)) (Impact.acknowledge true time) s.impacts }

/-- An open impact that is there is acknowledged. -/
theorem Store.acknowledge_of_mem {s : Store} (h : Keyed (·.id) s.impacts) {i : Impact}
    (hi : i ∈ s.impacts) (hopen : i.isResolved = false) (time : Instant) :
    s.acknowledge i.id time true = (true, s.confirm time [i.id]) := by
  refine Prod.ext (resolveImpact_fst hi hopen _) ?_
  refine congrArg (fun is => { s with impacts := is })
    (updateWhere_congr (fun j hj => ?_) fun _ _ _ => rfl)
  by_cases hid : j.id = i.id
  · rw [h.eq_of_key_eq hj hi hid, hopen]
    simp
  · simp [hid]

/-- What was acknowledged for its age stays as it is when that is done again. -/
theorem Store.confirm_confirm (time : Instant) (id : String) (ids : List String) (s : Store) :
    (s.confirm time [id]).confirm time ids = s.confirm time (id :: ids) := by
  refine congrArg (fun is => { s with impacts := is }) ?_
  show updateWhere _ _ (updateWhere _ _ s.impacts) = _
  rw [updateWhere, updateWhere, updateWhere, List.map_map]
  refine List.map_congr_left fun i _ => ?_
  by_cases hid : i.id = id
  · by_cases hin : id ∈ ids <;> simp [hid, hin, Impact.acknowledge]
  · simp [hid]

theorem exec_filterAuxM_confirm {xs : List (Impact × Instant)} (acc : List (Impact × Instant))
    (hw : Store.Keyed (·.id) w.store.impacts) (hxs : (xs.map (·.1.id)).Nodup)
    (hopen : ∀ x ∈ xs, x.1 ∈ w.store.impacts ∧ x.1.isResolved = false) :
    exec (List.filterAuxM (fun x => confirm time x.1) xs acc) w =
      (.ok (xs.reverse ++ acc),
        { w with store := w.store.confirm time (xs.map (·.1.id)) }) := by
  induction xs generalizing w acc with
  | nil =>
    have hself : w.store.confirm time [] = w.store :=
      congrArg (fun is => { w.store with impacts := is })
        (Store.updateWhere_eq_self fun _ _ => decide_eq_false List.not_mem_nil)
    rw [List.map_nil, hself]
    rfl
  | cons x xs ih =>
    obtain ⟨hx, hxs⟩ := List.nodup_cons.mp hxs
    obtain ⟨hmem, hres⟩ := hopen x (List.mem_cons_self ..)
    have hone : exec (confirm time x.1) w =
        (.ok true, { w with store := w.store.confirm time [x.1.id] }) := by
      rw [confirm, exec_writeWith, Store.acknowledge_of_mem hw hmem hres]
    have hkeyed : Store.Keyed (·.id) (w.store.confirm time [x.1.id]).impacts :=
      hw.updateWhere fun _ _ => rfl
    rw [List.filterAuxM, exec_bind_ok hone]
    refine (ih (w := { w with store := w.store.confirm time [x.1.id] }) _ hkeyed hxs
      fun y hy => ?_).trans ?_
    · obtain ⟨hmem, hres⟩ := hopen y (List.mem_cons_of_mem _ hy)
      refine ⟨Store.mem_updateWhere.mpr ⟨y.1, hmem, if_neg fun hid => hx ?_⟩, hres⟩
      exact List.mem_map.mpr ⟨y, hy, List.mem_singleton.mp (of_decide_eq_true hid)⟩
    · rw [List.reverse_cons, List.append_assoc, List.map_cons,
        ← Store.confirm_confirm time x.1.id (xs.map (·.1.id))]
      rfl

/-- Open impacts with different identifiers are all acknowledged. -/
theorem exec_filterM_confirm {xs : List (Impact × Instant)}
    (hw : Store.Keyed (·.id) w.store.impacts) (hxs : (xs.map (·.1.id)).Nodup)
    (hopen : ∀ x ∈ xs, x.1 ∈ w.store.impacts ∧ x.1.isResolved = false) :
    exec (xs.filterM fun x => confirm time x.1) w =
      (.ok xs, { w with store := w.store.confirm time (xs.map (·.1.id)) }) := by
  rw [List.filterM, exec_bind_ok (exec_filterAuxM_confirm [] hw hxs hopen), List.append_nil,
    exec_pure, List.reverse_reverse]

/-- Acknowledging what is aged changes that and nothing else. -/
theorem Store.ListsAged.rewrites_confirm {s : Store} {cutoff : Instant}
    {aged : List (Impact × Instant)} (h : s.ListsAged cutoff aged) (hs : Keyed (·.id) s.impacts)
    (time : Instant) :
    Rewrites (s.Ages cutoff) (Impact.acknowledge true time) s.impacts
      (s.confirm time (aged.map (·.1.id))).impacts := by
  refine rewrites_updateWhere fun i hi => ?_
  rw [decide_eq_true_eq, List.mem_map]
  constructor
  · rintro ⟨x, hx, hid⟩
    rw [← hs.eq_of_key_eq (h.of_mem hx).1 hi hid]
    exact (h.of_mem hx).2
  · intro haged
    obtain ⟨x, hx, rfl⟩ := (h.mem_iff i).mpr ⟨hi, haged⟩
    exact ⟨x, hx, rfl⟩

end Acknowledging

/-! ## Moving on to review -/

/-- A request is ready for review: it is analysed and none of its impacts is open. -/
def Store.AwaitsReview (s : Store) (r : ChangeRequest) : Prop :=
  r.status = .analysisComplete ∧ ∀ i ∈ s.impacts, i.change = r.id → i.isResolved = true

/-- What looking at some requests again makes of a world: they move on to review and their authors
are told, in this order. -/
structure World.MovesOn (ids : List String) (w v : World) : Prop where
  requests : List.Forall₂ (fun r r' => r.id ∈ ids ∧
      (∃ t, r' = { r with status := .pendingReview, updatedAt := t }) ∨ r.id ∉ ids ∧ r' = r)
    w.store.requests v.store.requests
  others : v.store = { w.store with requests := v.store.requests }
  objects : v.objects = w.objects
  events : ∃ told, v.events = w.events ++ told ∧
    List.Forall₂ (fun id e => ∃ r ∈ w.store.requests, r.id = id ∧
      e = ⟨r.author, .pendingReview, r.id⟩) ids told

/-- Where every cell can be read, writing a request repairs nothing. -/
theorem Store.updateRequest_eq {s : Store} (h : s.damaged = []) (id : String)
    (f : ChangeRequest → ChangeRequest) :
    s.updateRequest id f = { s with requests := updateWhere (·.id = id) f s.requests } :=
  mend_eq_self (s := { s with requests := updateWhere (·.id = id) f s.requests }) h _ _

/-- The world after a request moved on to review. -/
def World.reviewed (w : World) (r : ChangeRequest) : World :=
  { w with
    store := { w.store with
      requests := Store.updateWhere (·.id = r.id) (fun q =>
        { q with status := .pendingReview, updatedAt := w.clock }) w.store.requests }
    events := w.events ++ [⟨r.author, .pendingReview, r.id⟩]
    clock := ⟨w.clock.nanos + tick⟩ }

section Reviewing

variable {w : World}

/-- A request that is ready for review moves on. -/
theorem reEvaluate_of_awaitsReview (h : w.store.Intact) {r : ChangeRequest}
    (hr : r ∈ w.store.requests) (hs : w.store.AwaitsReview r) :
    Succeeds (reEvaluate r.id) w fun status v => status = .pendingReview ∧ v = w.reviewed r := by
  obtain ⟨is, his⟩ := Store.impactsOf_of_readable h.readable r.id
  have hzero : openCount is = 0 := openCount_eq_zero.mpr fun i hi =>
    hs.2 i ((Store.mem_impactsOf his).mp hi).1 ((Store.mem_impactsOf his).mp hi).2
  have hset := Store.setStatus_of_hasRequest (Store.hasRequest_iff.mpr ⟨r, hr, rfl⟩)
    .pendingReview w.clock
  rw [Store.updateRequest_eq h.readable] at hset
  refine Yields.need_ok (h.request?_eq hr) ?_
  rw [if_neg (not_not.mpr hs.1)]
  refine Yields.read_ok his ?_
  rw [if_neg (hzero ▸ Nat.lt_irrefl 0)]
  exact Yields.now (Yields.write_ok hset ⟨rfl, rfl⟩)

theorem intact_reviewed (h : w.store.Intact) (r : ChangeRequest) :
    (w.reviewed r).store.Intact := by
  have hupdate := @Store.Intact.updateRequest _ h r.id
    (fun q => { q with status := .pendingReview, updatedAt := w.clock })
    (fun _ => rfl) (fun _ => rfl) fun _ => rfl
  rwa [Store.updateRequest_eq h.readable] at hupdate

theorem World.MovesOn.refl (w : World) : w.MovesOn [] w :=
  ⟨List.forall₂_same.mpr fun _ _ => Or.inr ⟨List.not_mem_nil, rfl⟩, rfl, rfl, [],
    (List.append_nil _).symm, .nil⟩

/-- One request moves on before others do. -/
theorem World.MovesOn.cons {v : World} {r : ChangeRequest} {ids : List String}
    (hr : r ∈ w.store.requests) (hid : r.id ∉ ids) (h : (w.reviewed r).MovesOn ids v) :
    w.MovesOn (r.id :: ids) v := by
  refine ⟨?_, h.others, h.objects, ?_⟩
  · have hmoved := h.requests
    rw [World.reviewed, Store.updateWhere, List.forall₂_map_left_iff] at hmoved
    refine hmoved.imp fun q q' hq => ?_
    by_cases heq : q.id = r.id
    · rw [if_pos (decide_eq_true heq)] at hq
      rcases hq with ⟨hin, -⟩ | ⟨-, rfl⟩
      · exact absurd (show q.id ∈ ids from hin) (heq ▸ hid)
      · exact Or.inl ⟨heq ▸ List.mem_cons_self .., w.clock, rfl⟩
    · rw [if_neg fun hq => heq (of_decide_eq_true hq)] at hq
      simpa only [List.mem_cons, heq, false_or] using hq
  · obtain ⟨told, htold, hall⟩ := h.events
    refine ⟨⟨r.author, .pendingReview, r.id⟩ :: told, ?_, .cons ⟨r, hr, rfl, rfl⟩ (hall.imp ?_)⟩
    · rw [htold, World.reviewed, List.append_assoc, List.singleton_append]
    · rintro id' e ⟨q', hq', rfl, rfl⟩
      obtain ⟨q, hq, rfl⟩ := Store.mem_updateWhere.mp hq'
      refine ⟨q, hq, ?_⟩
      split <;> exact ⟨rfl, rfl⟩

/-- Requests that are ready for review move on one after the other. -/
theorem exec_forM_reEvaluate {ids : List String} (h : w.store.Intact) (hids : ids.Nodup)
    (hready : ∀ id ∈ ids, ∃ r ∈ w.store.requests, r.id = id ∧ w.store.AwaitsReview r) :
    ∃ v, exec (ids.forM fun id => do let _ ← reEvaluate id) w = (.ok ⟨⟩, v) ∧ v.store.Intact ∧
      w.MovesOn ids v := by
  induction ids generalizing w with
  | nil => exact ⟨w, rfl, h, .refl w⟩
  | cons id ids ih =>
    obtain ⟨r, hr, rfl, hs⟩ := hready id (List.mem_cons_self ..)
    obtain ⟨hid, hrest⟩ := List.nodup_cons.mp hids
    have hone : exec (do let _ ← reEvaluate r.id) w = (.ok ⟨⟩, w.reviewed r) := by
      obtain ⟨_, _, he, -, rfl⟩ := (reEvaluate_of_awaitsReview h hr hs).exists_ok
      rw [exec_bind_ok he, exec_pure]
    -- the others are still ready, since only this request was written
    obtain ⟨v, he, hafter, hv⟩ := ih (intact_reviewed h r) hrest fun id' hid' => by
      obtain ⟨q, hq, rfl, hs'⟩ := hready id' (List.mem_cons_of_mem _ hid')
      refine ⟨q, Store.mem_updateWhere.mpr ⟨q, hq, if_neg fun heq => hid ?_⟩, rfl, hs'⟩
      exact of_decide_eq_true heq ▸ hid'
    refine ⟨v, ?_, hafter, hv.cons hr hid⟩
    rw [List.forM, exec_bind_ok hone, he]

end Reviewing

/-! ## A whole sweep -/

/-- What a sweep at a time, of the impacts of requests that were made up to `cutoff`, does to a
world. -/
structure Swept (time cutoff : Instant) (report : SweepReport) (w v : World) : Prop where
  /-- Exactly the aged impacts are acknowledged. -/
  impacts : Store.Rewrites (w.store.Ages cutoff) (Impact.acknowledge true time) w.store.impacts
    v.store.impacts
  confirmed : report.confirmed = w.store.impacts.countP (w.store.Ages cutoff)
  ascending : report.reEvaluated.Pairwise (· < ·)
  touched : ∀ id, id ∈ report.reEvaluated ↔
    ∃ i ∈ w.store.impacts, w.store.Ages cutoff i ∧ i.change = id
  /-- The touched requests move on to review, and nothing else changes. -/
  moves : World.MovesOn report.reEvaluated
    { w with store := { w.store with impacts := v.store.impacts } } v
  settled : ∀ i ∈ v.store.impacts, i.change ∈ report.reEvaluated → i.isResolved = true

section Sweep

variable {setup : Setup} {w v : World} {time cutoff : Instant} {report : SweepReport}

/-- Acknowledging the aged impacts leaves their requests without open ones. -/
private theorem isResolved_of_rewrites {is : List Impact}
    (his : Store.Rewrites (w.store.Ages cutoff) (Impact.acknowledge true time) w.store.impacts is)
    {j : Impact} (haged : w.store.Ages cutoff j) {i : Impact} (hi : i ∈ is)
    (hchange : i.change = j.change) : i.isResolved = true := by
  obtain ⟨k, -, ⟨-, rfl⟩ | ⟨hnot, rfl⟩⟩ := Store.exists_left_of_forall₂ his hi
  · rfl
  · obtain ⟨-, r, hr, hid, hs, hmade⟩ := haged
    by_contra hopen
    exact hnot ⟨Bool.eq_false_iff.mpr hopen, r, hr, hid.trans hchange.symm, hs, hmade⟩

/-- In a reachable world a request with an open impact is analysed, unless it is decided. -/
theorem Reachable.analysed_of_open (h : Reachable setup w) {r : ChangeRequest}
    (hr : r ∈ w.store.requests) (hs : r.status.isTerminal = false) {i : Impact}
    (hi : i ∈ w.store.impacts) (hchange : r.id = i.change) (hopen : i.isResolved = false) :
    r.status = .analysisComplete := by
  have hd : w.store.dossier r ∈ w.store.dossiers := List.mem_map_of_mem hr
  have hagrees := h.allAgree _ hd
  have hin : i ∈ (w.store.dossier r).impacts :=
    (Store.mem_impacts_of_mem_dossiers hd).mpr ⟨hi, hchange.symm⟩
  have hnone (hwaiting : r.status = .draft ∨ r.status = .pendingAnalysis) : False := by
    rw [hagrees.waiting hwaiting] at hin
    cases hin
  cases hstatus : r.status with
  | draft => exact (hnone (Or.inl hstatus)).elim
  | pendingAnalysis => exact (hnone (Or.inr hstatus)).elim
  | analysisComplete => rfl
  | pendingReview =>
    have hall := Dossier.isResolved_iff.mp (hagrees.reviewed hstatus) i hin
    rw [hopen] at hall
    cases hall
  | approved => rw [hstatus] at hs; cases hs
  | rejected => rw [hstatus] at hs; cases hs

/-- A sweep of a reachable world succeeds and does exactly this. -/
theorem Reachable.exec_sweepUntil (h : Reachable setup w) (time cutoff : Instant) :
    ∃ report v, exec (sweepUntil time cutoff) w = (.ok report, v) ∧ v.store.Intact ∧
      Swept time cutoff report w v := by
  have hw := h.intact
  obtain ⟨found, hfound, hlists⟩ := hw.listsAged cutoff
  generalize haged : (found.filter fun x => decide (x.2 ≤ cutoff)) = aged at hlists
  have hconfirm := @exec_filterM_confirm w time _ hw.impactIds hlists.nodup
    fun x hx => ⟨(hlists.of_mem hx).1, (hlists.of_mem hx).2.1⟩
  have himpacts := hlists.rewrites_confirm hw.impactIds time
  have hsettled : ∀ i ∈ (w.store.confirm time (aged.map (·.1.id))).impacts,
      i.change ∈ Ordered.ofList (aged.map (·.1.change)) → i.isResolved = true := by
    intro i hi hin
    obtain ⟨j, -, haged, hchange⟩ := hlists.mem_requests.mp hin
    exact isResolved_of_rewrites himpacts haged hi hchange.symm
  have hintact : (w.store.confirm time (aged.map (·.1.id))).Intact :=
    hw.updateImpacts (fun _ => rfl) (fun _ => rfl) fun _ => rfl
  obtain ⟨v, hv, hafter, hmoves⟩ := exec_forM_reEvaluate
    (w := { w with store := w.store.confirm time (aged.map (·.1.id)) }) hintact
    Ordered.nodup_ofList fun id hid => by
      obtain ⟨i, hi, ⟨hopen, r, hr, hrid, hs, -⟩, rfl⟩ := hlists.mem_requests.mp hid
      refine ⟨r, hr, hrid, h.analysed_of_open hr hs hi hrid hopen, fun j hj hchange => ?_⟩
      exact hsettled j hj (hchange.trans hrid ▸ hid)
  have hsame : v.store.impacts = (w.store.confirm time (aged.map (·.1.id))).impacts := by
    rw [hmoves.others]
  refine ⟨{ confirmed := aged.length, reEvaluated := Ordered.ofList (aged.map (·.1.change)) }, v,
    ?_, hafter, ?_⟩
  · have hread : exec (read (·.openImpacts)) w = (.ok found, w) := by rw [exec_read, hfound]
    rw [sweepUntil, exec_bind_ok hread, haged, exec_bind_ok hconfirm, exec_bind_ok hv, exec_pure]
  · refine ⟨hsame ▸ himpacts, hlists.length_eq hw.impactIds, Ordered.pairwise_ofList,
      fun _ => hlists.mem_requests, ?_, hsame ▸ hsettled⟩
    rw [hsame]
    exact hmoves

/-- After a sweep no impact is aged. -/
theorem Swept.not_ages (hs : Swept time cutoff report w v) {i : Impact} (hi : i ∈ v.store.impacts) :
    ¬v.store.Ages cutoff i := by
  rintro ⟨hopen, r', hr', hid, hundecided, hmade⟩
  obtain ⟨j, -, ⟨-, rfl⟩ | ⟨hnot, rfl⟩⟩ := Store.exists_left_of_forall₂ hs.impacts hi
  · cases hopen
  · obtain ⟨r, hr, ⟨hin, t, rfl⟩ | ⟨-, rfl⟩⟩ := Store.exists_left_of_forall₂ hs.moves.requests hr'
    · rw [hs.settled i hi (hid ▸ hin)] at hopen
      cases hopen
    · exact hnot ⟨hopen, r', hr, hid, hundecided, hmade⟩

/-- Another sweep up to the same time finds nothing to do. -/
theorem Swept.exec_again (hs : Swept time cutoff report w v) (hv : v.store.Intact) :
    exec (sweepUntil time cutoff) v = (.ok {}, v) := by
  obtain ⟨found, hfound, hlists⟩ := hv.listsAged cutoff
  have hnone : (found.filter fun x => decide (x.2 ≤ cutoff)) = [] :=
    List.eq_nil_iff_forall_not_mem.mpr fun x hx =>
      hs.not_ages (hlists.of_mem hx).1 (hlists.of_mem hx).2
  have hread : exec (read (·.openImpacts)) v = (.ok found, v) := by rw [exec_read, hfound]
  rw [sweepUntil, exec_bind_ok hread, hnone]
  rfl

end Sweep

end ChangeImpact
