import ChangeImpact.Proofs.Workflow.Outcomes
import ChangeImpact.Workflow.Aging

/-!
# How a sweep ends

A sweep reaches requests that nobody named. It acknowledges open impacts of requests
that are not decided, and every request of which it has acknowledged an impact is
looked at again before it ends.
-/

namespace ChangeImpact

open Operation

variable {w : World}

/-- The dossier is unchanged, or some of its open impacts were acknowledged and its request
is among those of the given impacts. -/
def Confirmed (found : List (Impact × Instant)) (d d' : Dossier) : Prop :=
  d'.request = d.request ∧ List.Forall₂ Impact.Settles d.impacts d'.impacts ∧
    (d' = d ∨ ∃ x ∈ found, x.1.change = d.request.id)

/-- The effect of one acknowledgement on a dossier. -/
private theorem confirmed_resolve {s : Store} {d : Dossier} (hd : d ∈ s.dossiers) {i : Impact}
    (hi : ∀ j ∈ s.impacts, j.id = i.id → j.change = i.change) (time : Instant) :
    let isOpen (j : Impact) : Bool := j.id = i.id && !j.isResolved
    let after := Store.updateWhere isOpen (Impact.acknowledge true time) d.impacts
    List.Forall₂ Impact.Settles d.impacts after ∧
      (after = d.impacts ∨ s.impacts.any isOpen = true ∧ i.change = d.request.id) := by
  intro isOpen after
  have hopen {j : Impact} (hj : isOpen j = true) : j.id = i.id ∧ j.isResolved = false := by
    simpa [isOpen] using hj
  constructor
  · refine List.forall₂_map_right_iff.mpr (List.forall₂_same.mpr ?_)
    intro j _
    by_cases hj : isOpen j = true
    · rw [if_pos hj]
      exact .acknowledged (hopen hj).2 true time
    · rw [if_neg hj]
      exact .same j
  · by_cases hany : ∃ j ∈ d.impacts, isOpen j = true
    · obtain ⟨j, hj, hjo⟩ := hany
      rw [Store.mem_impacts_of_mem_dossiers hd] at hj
      refine Or.inr ⟨List.any_eq_true.mpr ⟨j, hj.1, hjo⟩, ?_⟩
      exact (hi j hj.1 (hopen hjo).1).symm.trans hj.2
    · refine Or.inl (Store.updateWhere_eq_self fun j hj => ?_)
      exact Bool.eq_false_iff.mpr fun hjo => hany ⟨j, hj, hjo⟩

private theorem mem_cond_cons {α : Type} {b : Bool} {x y : α} {xs : List α} :
    (y ∈ bif b then x :: xs else xs) ↔ (b = true ∧ y = x) ∨ y ∈ xs := by
  cases b <;> simp

/-- Acknowledging keeps the request that an identifier of an impact leads to. -/
private theorem change_of_acknowledge {s : Store} (id : String) (time : Instant) {i change : String}
    (h : ∀ j ∈ s.impacts, j.id = i → j.change = change) :
    ∀ j ∈ (s.acknowledge id time true).2.impacts, j.id = i → j.change = change := by
  intro j hj hid
  obtain ⟨k, hk, rfl⟩ := Store.mem_updateWhere.mp hj
  have hkid := h k hk
  split at hid
  · rename_i hopen
    rw [if_pos hopen]
    exact hkid hid
  · rename_i hopen
    rw [if_neg hopen]
    exact hkid hid

/-- One acknowledgement more on the way of a dossier through a batch. -/
private theorem confirmed_cons {s : Store} {d d' : Dossier} (hd : d ∈ s.dossiers)
    {x : Impact × Instant} {ys : List (Impact × Instant)}
    (hx : ∀ j ∈ s.impacts, j.id = x.1.id → j.change = x.1.change) (time : Instant)
    (hin : (s.impacts.any fun j => j.id = x.1.id && !j.isResolved) = true → x ∈ ys)
    (h : Confirmed ys
      { d with impacts := Store.updateWhere (fun j => j.id = x.1.id && !j.isResolved)
                 (Impact.acknowledge true time) d.impacts } d') : Confirmed ys d d' := by
  obtain ⟨hr, hset, hch⟩ := h
  obtain ⟨hone, hsame⟩ := confirmed_resolve hd hx time
  refine ⟨hr, Store.forall₂_comp (fun _ _ _ hi hj => hi.trans hj) hone hset, ?_⟩
  rcases hch with rfl | hch
  · rcases hsame with heq | ⟨hany, hchange⟩
    · exact Or.inl (congrArg (Dossier.mk d.request) heq)
    · exact Or.inr ⟨x, hin hany, hchange⟩
  · exact Or.inr hch

/-- Acknowledging impacts one after the other, those that were still open being collected. -/
private theorem confirmAll_succeeds (time : Instant) {xs : List (Impact × Instant)}
    (acc : List (Impact × Instant)) (h : w.store.Intact)
    (hx : ∀ x ∈ xs, ∀ j ∈ w.store.impacts, j.id = x.1.id → j.change = x.1.change) :
    Succeeds (List.filterAuxM (fun x => confirm time x.1) xs acc) w fun ys w' =>
      w'.store.Intact ∧ w'.store.requests = w.store.requests ∧
        (∀ y ∈ ys, y ∈ xs ∨ y ∈ acc) ∧ (∀ y ∈ acc, y ∈ ys) ∧
        List.Forall₂ (Confirmed ys) w.store.dossiers w'.store.dossiers := by
  induction xs generalizing w acc with
  | nil =>
    refine ⟨h, rfl, fun y hy => Or.inr hy, fun y hy => hy, List.forall₂_same.mpr fun d _ => ?_⟩
    exact ⟨rfl, List.forall₂_same.mpr fun i _ => .same i, Or.inl rfl⟩
  | cons x xs ih =>
    have hx' (y : Impact × Instant) (hy : y ∈ xs) :=
      change_of_acknowledge x.1.id time (hx y (List.mem_cons_of_mem _ hy))
    have hs := h.acknowledge x.1.id time true
    have hdossiers : (w.store.acknowledge x.1.id time true).2.dossiers = _ :=
      Store.dossiers_updateImpacts fun _ => rfl
    refine Yields.writeWith_ok rfl ?_
    refine Yields.imp (ih _ hs hx') (fun _ hf => hf) ?_
    rintro ys w' ⟨hintact, hreq, hsub, hsup, hrel⟩
    refine ⟨hintact, hreq, fun y hy => ?_,
      fun y hy => hsup y (mem_cond_cons.mpr (Or.inr hy)), ?_⟩
    · rcases hsub y hy with hy | hy
      · exact Or.inl (List.mem_cons_of_mem _ hy)
      · rcases mem_cond_cons.mp hy with ⟨-, rfl⟩ | hy
        · exact Or.inl (List.mem_cons_self ..)
        · exact Or.inr hy
    · have hrest : List.Forall₂ (Confirmed ys)
          (w.store.acknowledge x.1.id time true).2.dossiers w'.store.dossiers := hrel
      rw [hdossiers, List.forall₂_map_left_iff] at hrest
      refine ((List.forall₂_and_left _ _).mpr ⟨fun d hd => hd, hrest⟩).imp ?_
      rintro d d' ⟨hd, hconf⟩
      exact confirmed_cons hd (hx x (List.mem_cons_self ..)) time
        (fun hany => hsup x (mem_cond_cons.mpr (Or.inl ⟨hany, rfl⟩))) hconf

private theorem confirm_succeeds (time : Instant) {xs : List (Impact × Instant)}
    (h : w.store.Intact)
    (hx : ∀ x ∈ xs, ∀ j ∈ w.store.impacts, j.id = x.1.id → j.change = x.1.change) :
    Succeeds (xs.filterM fun x => confirm time x.1) w fun ys w' =>
      w'.store.Intact ∧ w'.store.requests = w.store.requests ∧ (∀ y ∈ ys, y ∈ xs) ∧
        List.Forall₂ (Confirmed ys) w.store.dossiers w'.store.dossiers := by
  refine Yields.bind (confirmAll_succeeds time [] h hx) ?_
  rintro ys v ⟨hintact, hreq, hsub, -, hrel⟩
  refine ⟨hintact, hreq, fun y hy => ?_, hrel.imp fun d d' => ?_⟩
  · exact (hsub y (List.mem_reverse.mp hy)).resolve_right List.not_mem_nil
  · rintro ⟨hr, hset, hch⟩
    refine ⟨hr, hset, hch.imp_right ?_⟩
    rintro ⟨x, hx, hchange⟩
    exact ⟨x, List.mem_reverse.mpr hx, hchange⟩

/-- The dossier was looked at again if its request is among the given ones. -/
def Reviewed (ids : List String) (d d' : Dossier) : Prop :=
  if d.request.id ∈ ids then ∃ time, d' = d.review time else d' = d

theorem Store.Intact.review {s : Store} (h : s.Intact) (id : String) (time : Instant) :
    (s.review id time).Intact := by
  rw [Store.review]
  split
  · exact h.updateRequest (fun _ => rfl) (fun _ => rfl) fun _ => rfl
  · exact h

theorem Store.hasRequest_review {s : Store} (h : Store.Keyed (·.id) s.requests) (id id' : String)
    (time : Instant) : (s.review id time).hasRequest id' = s.hasRequest id' := by
  have hids : (s.review id time).requests.map (·.id) = s.requests.map (·.id) := by
    rw [← Store.map_request_dossiers, ← Store.map_request_dossiers, Store.dossiers_review h,
      List.map_map, List.map_map, List.map_map]
    apply List.map_congr_left
    intro d _
    by_cases hd : d.request.id = id
    · simp [hd]
    · simp [hd]
  have hany (t : Store) : t.hasRequest id' = (t.requests.map (·.id)).any fun k => k = id' := by
    rw [List.any_map]
    rfl
  rw [hany, hany, hids]

/-- Looking at several requests again. -/
private theorem reviewAll_succeeds {ids : List String} (h : w.store.Intact)
    (hr : ∀ id ∈ ids, w.store.hasRequest id = true) :
    Succeeds (ids.forM fun id => do let _ ← reEvaluate id) w fun _ w' =>
      List.Forall₂ (Reviewed ids) w.store.dossiers w'.store.dossiers := by
  induction ids generalizing w with
  | nil =>
    refine List.forall₂_same.mpr fun d _ => ?_
    rw [Reviewed, if_neg List.not_mem_nil]
  | cons id ids ih =>
    rw [List.forM]
    refine Yields.bind (P := fun _ v => ∃ time, v.store = w.store.review id time)
      (Yields.bind (reEvaluate_succeeds h (hr id (List.mem_cons_self ..))) ?_) ?_
    · rintro _ v ⟨hv, -⟩
      exact hv
    rintro _ v ⟨time, hv⟩
    refine Yields.imp (ih (hv ▸ h.review id time) fun id' hid' => ?_) (fun _ hf => hf) ?_
    · rw [hv, Store.hasRequest_review h.requestIds]
      exact hr id' (List.mem_cons_of_mem _ hid')
    · intro _ w' hrel
      rw [hv, Store.dossiers_review h.requestIds, List.forall₂_map_left_iff] at hrel
      refine hrel.imp fun d d' hd => ?_
      rw [Reviewed] at hd ⊢
      by_cases hid : d.request.id = id
      · rw [if_pos hid, Dossier.review_id] at hd
        rw [if_pos (hid ▸ List.mem_cons_self ..)]
        split at hd
        · obtain ⟨time', rfl⟩ := hd
          exact ⟨time, Dossier.review_review time time'⟩
        · exact ⟨time, hd⟩
      · rw [if_neg hid] at hd
        simpa only [List.mem_cons, hid, false_or] using hd

/-- The dossier is unchanged, or its request is not decided, some of its open impacts were
acknowledged and the request was then looked at again. -/
def Aged (d d' : Dossier) : Prop :=
  d' = d ∨ d.request.status.isTerminal = false ∧
    ∃ is time, List.Forall₂ Impact.Settles d.impacts is ∧ d' = Dossier.review time ⟨d.request, is⟩

/-- The request of an open impact that is listed is not decided. -/
theorem Store.not_terminal_of_mem_openImpacts {s : Store} (h : s.Intact)
    {found : List (Impact × Instant)} (hf : s.openImpacts = .ok found) {x : Impact × Instant}
    (hx : x ∈ found) {r : ChangeRequest} (hr : r ∈ s.requests) (hid : x.1.change = r.id) :
    r.status.isTerminal = false := by
  obtain ⟨-, -, q, hq, hqid, -, happroved, hrejected⟩ := Store.mem_openImpacts hf hx
  have hqr : q = r := h.requestIds.eq_of_key_eq hq hr (hqid.trans hid)
  subst hqr
  simp only [Store.statusIs, Store.isReadable_of_readable h.readable, Bool.and_true,
    decide_eq_false_iff_not] at happroved hrejected
  cases hs : q.status with
  | approved => exact absurd hs happroved
  | rejected => exact absurd hs hrejected
  | _ => rfl

/-- A sweep ages every dossier, or fails and changes nothing. -/
theorem sweep_decides (h : w.store.Intact) (time : Instant) (threshold : Int) :
    Decides (sweep time threshold) w fun _ w' =>
      List.Forall₂ Aged w.store.dossiers w'.store.dossiers := by
  rw [sweep]
  cases time.before? threshold with
  | none => exact .refl w
  | some cutoff =>
    refine Yields.read (fun _ => .refl w) fun found hfound => ?_
    have hx : ∀ x ∈ found.filter (fun x => decide (x.2 ≤ cutoff)),
        ∀ j ∈ w.store.impacts, j.id = x.1.id → j.change = x.1.change := by
      intro x hx j hj hid
      have hi := Store.mem_openImpacts hfound (List.mem_of_mem_filter hx)
      rw [h.impactIds.eq_of_key_eq hj hi.1 hid]
    refine Yields.bind (confirm_succeeds time h hx).yields ?_
    rintro ys v ⟨hintact, hrequests, hsub, hconfirmed⟩
    have htouched {id : String} : id ∈ Ordered.ofList (ys.map (·.1.change)) ↔
        ∃ x ∈ ys, x.1.change = id := by
      rw [Ordered.mem_ofList, List.mem_map]
    refine Yields.bind (reviewAll_succeeds hintact fun id hid => ?_).yields ?_
    · obtain ⟨x, hxs, rfl⟩ := htouched.mp hid
      have hi := Store.mem_openImpacts hfound (List.mem_of_mem_filter (hsub x hxs))
      obtain ⟨-, -, r, hr, hrid, -⟩ := hi
      exact Store.hasRequest_iff.mpr ⟨r, hrequests ▸ hr, hrid⟩
    · intro _ v' hreviewed
      refine Store.forall₂_comp (fun d e d' hd he => ?_)
        ((List.forall₂_and_left _ _).mpr ⟨fun d hd => hd, hconfirmed⟩) hreviewed
      obtain ⟨hmem, hreq, hset, hch⟩ := hd
      rw [Reviewed, hreq] at he
      by_cases hin : d.request.id ∈ Ordered.ofList (ys.map (·.1.change))
      · obtain ⟨x, hxs, hid⟩ := htouched.mp hin
        rw [if_pos hin] at he
        obtain ⟨time', rfl⟩ := he
        refine Or.inr ⟨?_, e.impacts, time', hset, ?_⟩
        · exact Store.not_terminal_of_mem_openImpacts h hfound
            (List.mem_of_mem_filter (hsub x hxs)) (Store.mem_dossiers.mp hmem).1 hid
        · rw [← hreq]
      · rw [if_neg hin] at he
        exact Or.inl (he.trans (hch.resolve_right fun hex => hin (htouched.mpr hex)))

end ChangeImpact
