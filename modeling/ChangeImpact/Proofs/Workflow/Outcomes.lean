import ChangeImpact.Proofs.Graph.Stored
import ChangeImpact.Proofs.Workflow.Dossier

/-!
# How the actions on a change request end

In an intact store each action that a user takes on a change request or an impact
decides: it is refused and leaves the world as it was, or it does the one thing
that it is for.
-/

namespace ChangeImpact

open Operation

variable {w : World}

/-! ## Making, submitting and looking again -/

/-- A request that is made is stored in its project, as a draft or for analysis. -/
theorem createRequest_decides (w : World) (project component author title description : String)
    (submitted : Bool) :
    Decides (createRequest project component author title description submitted) w fun r w' =>
      w.store.insertRequest r = .ok w'.store ∧
        (r.status = .draft ∨ r.status = .pendingAnalysis) ∧ r.resolvedAt = none ∧
        r.project = project := by
  refine Yields.need (fun _ => .refl w) fun c _ => ?_
  refine Yields.now (Yields.freshId ?_)
  refine Yields.write ⟨rfl, rfl, rfl⟩ fun s hs => ?_
  refine ⟨hs, ?_, rfl, rfl⟩
  cases submitted with
  | false => exact Or.inl rfl
  | true => exact Or.inr rfl

theorem Store.eq_of_setStatus {s t : Store} {id : String} {status : ChangeStatus} {now : Instant}
    (h : s.setStatus id status now = .ok t) :
    t = s.updateRequest id fun r => { r with status, updatedAt := now } := by
  obtain ⟨-, h⟩ := Store.demand_bind_ok.mp h
  cases h
  rfl

theorem Store.setStatus_of_hasRequest {s : Store} {id : String} (h : s.hasRequest id = true)
    (status : ChangeStatus) (now : Instant) :
    s.setStatus id status now =
      .ok (s.updateRequest id fun r => { r with status, updatedAt := now }) :=
  Store.demand_bind_ok.mpr ⟨h, rfl⟩

/-- Only a draft can be submitted, and only by its author. -/
theorem submitRequest_decides (w : World) (id user : String) :
    Decides (submitRequest id user) w fun _ w' =>
      ∃ r ∈ w.store.requests, r.id = id ∧ r.author = user ∧ r.status = .draft ∧
        ∃ time, w'.store =
          w.store.updateRequest id fun r =>
            { r with status := .pendingAnalysis, updatedAt := time } := by
  refine Yields.need (fun _ => .refl w) fun r hr => ?_
  obtain ⟨hm, hid⟩ := Store.mem_of_request? hr
  refine Yields.require (fun _ => .refl w) fun hauthor => ?_
  refine Yields.require (fun _ => .refl w) fun hstatus => ?_
  refine Yields.now ?_
  refine Yields.write ⟨rfl, rfl, rfl⟩ fun s hs => ?_
  exact ⟨r, hm, hid, of_decide_eq_true hauthor, of_decide_eq_true hstatus, w.clock,
    Store.eq_of_setStatus hs⟩

theorem openCount_eq_zero {is : List Impact} :
    openCount is = 0 ↔ ∀ i ∈ is, i.isResolved = true := by
  simp [openCount, List.countP_eq_zero]

/-- What looking at a request again makes of the store, from the request that is found. -/
theorem Store.review_of_mem {s : Store} (hk : Store.Keyed (·.id) s.requests) {r : ChangeRequest}
    (hr : r ∈ s.requests) (time : Instant) :
    s.review r.id time =
      if r.status = .analysisComplete ∧ (s.dossier r).isResolved then
        s.updateRequest r.id fun r => { r with status := .pendingReview, updatedAt := time }
      else s := by
  have hd : s.dossier r ∈ s.dossiers := List.mem_map_of_mem hr
  refine if_congr ⟨?_, fun h => ⟨s.dossier r, hd, rfl, h⟩⟩ rfl rfl
  rintro ⟨e, he, hid, hs⟩
  rwa [Store.eq_of_request_id hk he hd hid] at hs

/-- Looking at a request again fails only if the request or its impacts cannot be read. -/
theorem reEvaluate_yields {E : World → Prop} {id : String}
    (hk : Store.Keyed (·.id) w.store.requests)
    (hE : ¬(w.store.damaged = [] ∧ w.store.hasRequest id = true) → E w) :
    Yields (reEvaluate id) w E fun _ w' =>
      (∃ time, w'.store = w.store.review id time) ∧ w'.objects = w.objects ∧
        w'.issued = w.issued := by
  refine Yields.need (fun hn => hE ?_) fun r hr => ?_
  · rintro ⟨hdam, hreq⟩
    obtain ⟨r, hr, rfl⟩ := Store.hasRequest_iff.mp hreq
    refine hn r ?_
    rw [Store.request?, Store.readFirst_of_readable hdam]
    exact congrArg Except.ok (hk.find?_eq_some_iff.mpr ⟨hr, rfl⟩)
  · obtain ⟨hm, rfl⟩ := Store.mem_of_request? hr
    have hrev (time : Instant) := Store.review_of_mem hk hm time
    split
    · rename_i hne
      exact ⟨⟨w.clock, ((hrev w.clock).trans (if_neg fun h => hne h.1)).symm⟩, rfl, rfl⟩
    · rename_i heq
      rw [ne_eq, Decidable.not_not] at heq
      refine Yields.read (fun hn => hE ?_) fun is his => ?_
      · rintro ⟨hdam, -⟩
        obtain ⟨is, his⟩ := Store.impactsOf_of_readable hdam r.id
        exact hn is his
      · have hres : (w.store.dossier r).isResolved = true ↔ openCount is = 0 := by
          rw [Dossier.isResolved_iff, openCount_eq_zero]
          simp only [Store.mem_impactsOf his, Store.dossier, List.mem_filter, decide_eq_true_eq]
        split
        · rename_i hpos
          refine ⟨⟨w.clock, ((hrev w.clock).trans (if_neg fun h => ?_)).symm⟩, rfl, rfl⟩
          rw [hres.mp h.2] at hpos
          exact absurd hpos (lt_irrefl 0)
        · rename_i hpos
          have hzero : openCount is = 0 := Nat.eq_zero_of_not_pos hpos
          refine Yields.now ?_
          refine Yields.write_ok
            (Store.setStatus_of_hasRequest (Store.hasRequest_iff.mpr ⟨r, hm, rfl⟩) _ _) ?_
          exact ⟨⟨w.clock, ((hrev w.clock).trans (if_pos ⟨heq, hres.mpr hzero⟩)).symm⟩, rfl,
            rfl⟩

/-- In an intact store a request that is there can be looked at again. -/
theorem reEvaluate_succeeds (h : w.store.Intact) {id : String}
    (hr : w.store.hasRequest id = true) :
    Succeeds (reEvaluate id) w fun _ w' =>
      (∃ time, w'.store = w.store.review id time) ∧ w'.objects = w.objects ∧
        w'.issued = w.issued :=
  reEvaluate_yields h.requestIds fun hn => hn ⟨h.readable, hr⟩

/-! ## Acknowledging and dismissing -/

/-- An impact that may be resolved is open and belongs to a request that is not decided. -/
theorem checkResolvable_yields {E : World → Prop} (hE : E w) (i : Impact) (user : String)
    (activity : Activity) :
    Yields (checkResolvable i user activity) w E fun _ w' =>
      w' = w ∧ i.contributor = user ∧ i.isResolved = false ∧
        ∃ r ∈ w.store.requests, r.id = i.change ∧ r.status.isTerminal = false := by
  refine Yields.require (fun _ => hE) fun huser => ?_
  refine Yields.require (fun _ => hE) fun hopen => ?_
  refine Yields.need (fun _ => hE) fun r hr => ?_
  refine Yields.require_last (fun _ => hE) fun hterm => ?_
  obtain ⟨hm, hid⟩ := Store.mem_of_request? hr
  exact ⟨rfl, of_decide_eq_true huser, by simpa using hopen, r, hm, hid, by simpa using hterm⟩

/-- An open impact that is there is found to be open. -/
theorem Store.resolveImpact_fst {s : Store} {i : Impact} (hi : i ∈ s.impacts)
    (hopen : i.isResolved = false) (f : Impact → Impact) : (s.resolveImpact i.id f).1 = true :=
  List.any_eq_true.mpr ⟨i, hi, by simp [hopen]⟩

/-- What an acknowledgement or a dismissal ends with: the impact is resolved by `f`, and
its request is looked at again. -/
def Resolved (f : Instant → Impact → Impact) (id user : String) (w w' : World) : Prop :=
  ∃ i ∈ w.store.impacts, i.id = id ∧ i.contributor = user ∧ i.isResolved = false ∧
    (∃ r ∈ w.store.requests, r.id = i.change ∧ r.status.isTerminal = false) ∧
    (∃ time time', w'.store = ((w.store.resolveImpact id (f time)).2).review i.change time') ∧
    w'.objects = w.objects

/-- Once the checks are passed, resolving an impact cannot fail. -/
private theorem resolve_succeeds (h : w.store.Intact) {i : Impact} (hi : i ∈ w.store.impacts)
    (hopen : i.isResolved = false)
    (hr : ∃ r ∈ w.store.requests, r.id = i.change ∧ r.status.isTerminal = false)
    (f : Instant → Impact → Impact) (hid : ∀ t j, (f t j).id = j.id)
    (hchange : ∀ t j, (f t j).change = j.change)
    (hcomponent : ∀ t j, (f t j).component = j.component) :
    Succeeds (do
      let time ← now
      let done ← writeWith fun s => .ok (s.resolveImpact i.id (f time))
      require done (.alreadyResolved i.id)
      reEvaluate i.change) w fun _ w' => Resolved f i.id i.contributor w w' := by
  refine Yields.now ?_
  have hdone : (w.store.resolveImpact i.id (f w.clock)) =
      (true, (w.store.resolveImpact i.id (f w.clock)).2) :=
    Prod.ext (Store.resolveImpact_fst hi hopen _) rfl
  refine Yields.writeWith_ok (congrArg Except.ok hdone) ?_
  refine Yields.require (fun hf => nomatch hf) fun _ => ?_
  have hintact : (w.store.resolveImpact i.id (f w.clock)).2.Intact :=
    h.updateImpacts (hid w.clock) (hchange w.clock) (hcomponent w.clock)
  have hreq : (w.store.resolveImpact i.id (f w.clock)).2.hasRequest i.change = true := by
    obtain ⟨r, hr, hrid, -⟩ := hr
    exact Store.hasRequest_iff.mpr ⟨r, hr, hrid⟩
  refine Yields.imp (reEvaluate_succeeds (w := { w with
    clock := ⟨w.clock.nanos + tick⟩
    store := (w.store.resolveImpact i.id (f w.clock)).2 }) hintact hreq) (fun _ hf => hf) ?_
  rintro _ w' ⟨⟨time', hs⟩, ho, -⟩
  exact ⟨i, hi, rfl, rfl, hopen, hr, ⟨w.clock, time', hs⟩, ho⟩

/-- An impact is acknowledged by its contributor. -/
theorem acknowledgeImpact_decides (h : w.store.Intact) (id user : String) :
    Decides (acknowledgeImpact id user) w fun _ w' =>
      Resolved (Impact.acknowledge false) id user w w' := by
  refine Yields.need (fun _ => .refl w) fun i hi => ?_
  obtain ⟨hm, rfl⟩ := Store.mem_of_impact? hi
  refine Yields.bind (checkResolvable_yields (.refl w) i user .acknowledge) ?_
  rintro _ _ ⟨rfl, rfl, hopen, hr⟩
  exact (resolve_succeeds h hm hopen hr (Impact.acknowledge false) (fun _ _ => rfl)
    (fun _ _ => rfl) fun _ _ => rfl).yields

/-- An impact is dismissed by its contributor, unless the parser found it. -/
theorem dismissImpact_decides (h : w.store.Intact) (id user : String) :
    Decides (dismissImpact id user) w fun _ w' =>
      Resolved Impact.dismiss id user w w' ∧
        ∃ i ∈ w.store.impacts, i.id = id ∧ i.method ≠ .parser := by
  refine Yields.need (fun _ => .refl w) fun i hi => ?_
  obtain ⟨hm, rfl⟩ := Store.mem_of_impact? hi
  refine Yields.bind (checkResolvable_yields (.refl w) i user .dismiss) ?_
  rintro _ _ ⟨rfl, rfl, hopen, hr⟩
  refine Yields.require (fun _ => .refl _) fun hmethod => ?_
  refine Succeeds.yields (Yields.imp (resolve_succeeds h hm hopen hr Impact.dismiss
    (fun _ _ => rfl) (fun _ _ => rfl) fun _ _ => rfl) (fun _ hf => hf) fun _ _ hresolved => ?_)
  exact ⟨hresolved, i, hm, rfl, of_decide_eq_true hmethod⟩

end ChangeImpact
