import ChangeImpact.Proofs.Store.Promoted
import ChangeImpact.Proofs.Workflow.Aged
import ChangeImpact.Proofs.Workflow.Analysed
import ChangeImpact.Proofs.Workflow.Decided

/-!
# The steps of a request

What an action can do with a request and its impacts, said once for all actions. A
step of the world is such a step for every request that is there, and may open a new
one. The invariants of the workflow follow from this relation alone.
-/

namespace ChangeImpact

open Operation

namespace Dossier

/-- The dossier without what a language model said. -/
def bare (d : Dossier) : Dossier :=
  { d with impacts := d.impacts.map fun i => { i with comment := none } }

/-- The dossier with another status. -/
def setStatus (status : ChangeStatus) (time : Instant) (d : Dossier) : Dossier :=
  { d with request := { d.request with status, updatedAt := time } }

/-- The dossier of a decided request. -/
def close (status : ChangeStatus) (time : Instant) (d : Dossier) : Dossier :=
  { d with request := { d.request with status, updatedAt := time, resolvedAt := some time } }

/-- The dossier with more impacts. -/
def extend (found : List Impact) (d : Dossier) : Dossier :=
  { d with impacts := d.impacts ++ found }

/-- The dossier with other impacts. -/
def withImpacts (is : List Impact) (d : Dossier) : Dossier := { d with impacts := is }

/-- A request that was just made. -/
structure IsNew (d : Dossier) : Prop where
  impacts : d.impacts = []
  status : d.request.status = .draft ∨ d.request.status = .pendingAnalysis
  resolvedAt : d.request.resolvedAt = none

end Dossier

namespace Action

/-- The actions after which requests are looked at again. -/
def isSettling : Action → Bool
  | acknowledge .. | dismiss .. | reEvaluate _ | sweep .. | autoconfirm => true
  | _ => false

/-- The request that the action would approve. -/
def approved? : Action → Option String
  | approve request _ | approveAndRebuild request _ => some request
  | _ => none

end Action

/-- What an action can do with a dossier; `strict` says that the project is of full
strictness. -/
inductive Advance (strict : Prop) (a : Action) (d : Dossier) : Dossier → Prop where
  /-- Nothing changes but comments. -/
  | comment {d' : Dossier} (same : d'.bare = d.bare) : Advance strict a d d'
  | submit {user : String} (action : a = .submit d.request.id user)
      (status : d.request.status = .draft) (time : Instant) :
      Advance strict a d (d.setStatus .pendingAnalysis time)
  | analyze (action : a = .analyze d.request.id) (status : d.request.status = .pendingAnalysis)
      {found : List Impact} (isOpen : ∀ i ∈ found, i.isResolved = false) (time time' : Instant) :
      Advance strict a d (((d.setStatus .analysisComplete time).extend found).review time')
  | settle (action : a.isSettling = true) (status : d.request.status.isTerminal = false)
      {is : List Impact} (settles : List.Forall₂ Impact.Settles d.impacts is) (time : Instant) :
      Advance strict a d ((d.withImpacts is).review time)
  | approve (action : a.approved? = some d.request.id)
      (status : d.request.status = .analysisComplete ∨ d.request.status = .pendingReview)
      (resolved : strict → d.isResolved = true) (time : Instant) :
      Advance strict a d (d.close .approved time)
  | reject {user : String} (action : a = .reject d.request.id user)
      (status : d.request.status.isTerminal = false) (time : Instant) :
      Advance strict a d (d.close .rejected time)

theorem Advance.refl (strict : Prop) (a : Action) (d : Dossier) : Advance strict a d d :=
  .comment rfl

/-- Looking at a decided request again changes nothing. -/
theorem Dossier.review_of_isTerminal {d : Dossier} (h : d.request.status.isTerminal = true)
    (time : Instant) : d.review time = d := by
  rw [Dossier.review, if_neg]
  rintro ⟨hs, -⟩
  rw [hs] at h
  cases h

/-- Looking at a request again is a step. -/
theorem Advance.review {strict : Prop} {a : Action} (ha : a.isSettling = true) (d : Dossier)
    (time : Instant) : Advance strict a d (d.review time) := by
  cases hs : d.request.status.isTerminal with
  | true =>
    rw [Dossier.review_of_isTerminal hs]
    exact .refl strict a d
  | false => exact .settle ha hs (List.forall₂_same.mpr fun i _ => .same i) time

/-- The columns of a request that nothing changes. -/
structure ChangeRequest.Same (r r' : ChangeRequest) : Prop where
  id : r'.id = r.id
  project : r'.project = r.project
  author : r'.author = r.author

/-- A step changes the status of a request and the times that go with it, and no other column. -/
theorem Advance.column {strict : Prop} {a : Action} {d d' : Dossier} {α : Type}
    {g : ChangeRequest → α} (h : Advance strict a d d')
    (hg : ∀ r status updatedAt resolvedAt, g { r with status, updatedAt, resolvedAt } = g r) :
    g d'.request = g d.request := by
  have hstatus (status : ChangeStatus) (time : Instant) (r : ChangeRequest) :
      g { r with status, updatedAt := time } = g r := hg r status time r.resolvedAt
  have hreview (time : Instant) (e : Dossier) : g (e.review time).request = g e.request := by
    rw [Dossier.review]
    split
    · exact hstatus _ _ _
    · rfl
  cases h with
  | comment same => exact congrArg (g ·.request) same
  | submit _ _ time => exact hstatus _ _ _
  | analyze _ _ _ time time' => exact (hreview time' _).trans (hstatus _ _ _)
  | settle _ _ _ time => exact hreview time _
  | approve _ _ _ time => exact hg _ _ _ _
  | reject _ _ time => exact hg _ _ _ _

/-- A step keeps the identifier, the project and the author of a request. -/
theorem Advance.request {strict : Prop} {a : Action} {d d' : Dossier} (h : Advance strict a d d') :
    d.request.Same d'.request where
  id := h.column fun _ _ _ _ => rfl
  project := h.column fun _ _ _ _ => rfl
  author := h.column fun _ _ _ _ => rfl

/-- The project demands that all impacts are resolved before an approval. -/
def Store.isStrict (s : Store) (project : String) : Prop :=
  ∃ p ∈ s.projects, p.id = project ∧ p.strictness = .full

/-- Every dossier takes a step, and the action may open a new one. -/
def Steps (a : Action) (s t : Store) : Prop :=
  ∃ kept opened, t.dossiers = kept ++ opened ∧
    List.Forall₂ (fun d d' => Advance (s.isStrict d.request.project) a d d') s.dossiers kept ∧
    ∀ d ∈ opened, d.IsNew

section Steps

variable {a : Action} {s t : Store}

theorem Steps.of_forall₂
    (h : List.Forall₂ (fun d d' => Advance (s.isStrict d.request.project) a d d')
      s.dossiers t.dossiers) : Steps a s t :=
  ⟨t.dossiers, [], (List.append_nil _).symm, h, fun _ hd => nomatch hd⟩

theorem Steps.of_map {g : Dossier → Dossier} (h : t.dossiers = s.dossiers.map g)
    (hg : ∀ d ∈ s.dossiers, Advance (s.isStrict d.request.project) a d (g d)) : Steps a s t := by
  refine .of_forall₂ ?_
  rw [h, List.forall₂_map_right_iff]
  exact List.forall₂_same.mpr hg

theorem Steps.of_eq (h : t.dossiers = s.dossiers) : Steps a s t :=
  .of_map (h.trans (List.map_id _).symm) fun d _ => .refl _ a d

/-- It is enough to look at how the operation ends. -/
theorem Steps.of_yields {α : Type} {o : Operation α} {w : World} {E : World → Prop}
    {Q : α → World → Prop} (h : Yields o w E Q) (hE : ∀ v, E v → v.store = w.store)
    (hQ : ∀ x v, Q x v → Steps a w.store v.store) : Steps a w.store (exec o w).2.store :=
  h.stored hE (.of_eq rfl) hQ

end Steps

variable {w : World}

theorem steps_create (h : w.store.Intact) (project component author title description : String)
    (submitted : Bool) :
    Steps (.create project component author title description submitted) w.store
      (exec (createRequest project component author title description submitted) w).2.store := by
  refine Steps.of_yields
    (createRequest_decides w project component author title description submitted)
    (fun v hv => hv.store) ?_
  rintro r v ⟨hi, hstatus, hresolved, -⟩
  refine ⟨w.store.dossiers, [⟨r, []⟩], Store.dossiers_insertRequest h.toConsistent hi, ?_, ?_⟩
  · exact List.forall₂_same.mpr fun d _ => .refl _ _ d
  · intro d hd
    rw [List.mem_singleton.mp hd]
    exact ⟨rfl, hstatus, hresolved⟩

theorem steps_submit (h : w.store.Intact) (id user : String) :
    Steps (.submit id user) w.store (exec (submitRequest id user) w).2.store := by
  refine Steps.of_yields (submitRequest_decides w id user) (fun v hv => hv.store) ?_
  rintro _ v ⟨r, hr, rfl, -, hstatus, time, hv⟩
  rw [hv]
  refine Steps.of_map (Store.dossiers_updateRequest fun _ => rfl) fun d hd => ?_
  by_cases hid : d.request.id = r.id
  · have hdr : d.request = r := h.requestIds.eq_of_key_eq (Store.mem_dossiers.mp hd).1 hr hid
    rw [if_pos hid]
    exact .submit (by rw [hid]) (hdr ▸ hstatus) time
  · rw [if_neg hid]
    exact .refl _ _ d

/-- The result of an analysis moves its request on and extends its dossier. -/
theorem Store.dossiers_commitAnalysis {s t : Store} {id : String} {is : List Impact}
    {flagged : List String} {now : Instant} (hc : ∀ i ∈ is, i.change = id)
    (h : s.commitAnalysis id is flagged now = .ok (true, t)) :
    t.dossiers = s.dossiers.map fun d =>
      if d.request.id = id then (d.setStatus .analysisComplete now).extend is else d := by
  obtain ⟨u, hu, rfl⟩ := Store.eq_of_commitAnalysis h
  have hd := Store.dossiers_insertImpacts hc hu
  rw [Store.dossiers_updateRequest fun _ => by rfl, List.map_map] at hd
  refine Eq.trans hd (List.map_congr_left fun d _ => ?_)
  by_cases hid : d.request.id = id
  · simp [hid, Dossier.setStatus, Dossier.extend]
  · simp [hid]

theorem steps_analyze (h : w.store.Intact) (setup : Setup) (id : String) :
    Steps (.analyze id) w.store (exec (analyzeRequest setup id) w).2.store := by
  refine Steps.of_yields (analyzeRequest_yields setup id h.requestIds (fun _ hv => hv) (Or.inl h))
    (fun v hv => hv.store) ?_
  rintro _ v ⟨r, hr, rfl, hstatus, found, hfits, ⟨s, time, time', hcommit, hv⟩, -⟩
  have himpact : ∀ i ∈ found.impacts, i.change = r.id ∧ i.isResolved = false := by
    intro i hi
    obtain ⟨x, -, time, id, rfl⟩ := Store.exists_left_of_forall₂ hfits.impacts hi
    exact ⟨rfl, rfl⟩
  have hks : Store.Keyed (·.id) s.requests := by
    rw [Store.requests_commitAnalysis hcommit]
    exact h.requestIds.updateWhere fun _ _ => rfl
  have hd := Store.dossiers_commitAnalysis (fun i hi => (himpact i hi).1) hcommit
  rw [hv]
  refine Steps.of_map (((Store.dossiers_review hks r.id time').trans
    (congrArg (List.map _) hd)).trans (List.map_map ..)) fun d hmem => ?_
  rw [Function.comp_apply]
  by_cases hid : d.request.id = r.id
  · have hdr : d.request = r := h.requestIds.eq_of_key_eq (Store.mem_dossiers.mp hmem).1 hr hid
    rw [if_pos hid, if_pos (show ((d.setStatus .analysisComplete time).extend
      found.impacts).request.id = r.id from hid)]
    exact .analyze (by rw [hid]) (hdr ▸ hstatus) (fun i hi => (himpact i hi).2) time time'
  · rw [if_neg hid, if_neg hid]
    exact .refl _ _ d

/-- Resolving an impact is a step for its request and leaves all others alone. -/
theorem steps_resolve (h : w.store.Intact) {a : Action} (ha : a.isSettling = true)
    {f : Instant → Impact → Impact}
    (hf : ∀ time j, j.isResolved = false → Impact.Settles j (f time j))
    (hchange : ∀ time j, (f time j).change = j.change) {id user : String} {w' : World}
    (hr : Resolved f id user w w') : Steps a w.store w'.store := by
  obtain ⟨i, hi, rfl, -, -, ⟨r, hrm, hrid, hterm⟩, ⟨time, time', hs⟩, -⟩ := hr
  have hk : Store.Keyed (·.id) (w.store.resolveImpact i.id (f time)).2.requests := h.requestIds
  rw [hs]
  refine Steps.of_map (((Store.dossiers_review hk i.change time').trans
    (congrArg (List.map _) (Store.dossiers_updateImpacts (hchange time)))).trans
    (List.map_map ..)) fun d hd => ?_
  have hmem {j : Impact} := Store.mem_impacts_of_mem_dossiers hd (i := j)
  rw [Function.comp_apply]
  by_cases hid : d.request.id = i.change
  · have hdr : d.request = r :=
      h.requestIds.eq_of_key_eq (Store.mem_dossiers.mp hd).1 hrm (hid.trans hrid.symm)
    rw [if_pos hid]
    refine .settle ha (hdr ▸ hterm) ?_ time'
    refine List.forall₂_map_right_iff.mpr (List.forall₂_same.mpr fun j _ => ?_)
    split
    · rename_i hj
      exact hf time j (by simpa using (Bool.and_eq_true_iff.mp hj).2)
    · exact .same j
  · have hnone : Store.updateWhere (fun j => j.id = i.id && !j.isResolved) (f time) d.impacts =
        d.impacts := by
      refine Store.updateWhere_eq_self fun j hj => ?_
      rw [Bool.and_eq_false_iff]
      refine Or.inl (decide_eq_false fun hji => hid ?_)
      rw [hmem] at hj
      rw [← hj.2, h.impactIds.eq_of_key_eq hj.1 hi hji]
    rw [if_neg hid, hnone]
    exact .refl _ _ d

theorem steps_reEvaluate (h : w.store.Intact) (id : String) :
    Steps (.reEvaluate id) w.store (exec (reEvaluate id) w).2.store := by
  refine Steps.of_yields (reEvaluate_yields (E := w.Untouched) h.requestIds fun _ => .refl w)
    (fun v hv => hv.store) ?_
  rintro _ v ⟨⟨time, hv⟩, -⟩
  rw [hv]
  refine Steps.of_map (Store.dossiers_review h.requestIds id time) fun d _ => ?_
  split
  · exact .review rfl d time
  · exact .refl _ _ d

theorem steps_sweep (h : w.store.Intact) {a : Action} (ha : a.isSettling = true) (time : Instant)
    (threshold : Int) : Steps a w.store (exec (sweep time threshold) w).2.store := by
  refine Steps.of_yields (sweep_decides h time threshold) (fun v hv => hv.store) fun _ v hv => ?_
  refine Steps.of_forall₂ (hv.imp ?_)
  rintro d d' (rfl | ⟨hterm, is, time', hset, rfl⟩)
  · exact .refl _ _ d'
  · exact .settle ha hterm hset time'

theorem Store.dossiers_close (s : Store) (id : String) (status : ChangeStatus) (time : Instant) :
    (s.close id status time).dossiers =
      s.dossiers.map fun d => if d.request.id = id then d.close status time else d :=
  Store.dossiers_updateRequest fun _ => rfl

/-- An approval closes its request and leaves all others alone. -/
theorem Approved.dossiers {id user : String} {s t : Store} (h : Approved id user s t) :
    ∃ time, t.dossiers =
      s.dossiers.map fun d => if d.request.id = id then d.close .approved time else d := by
  obtain ⟨r, -, rfl, -, -, commit, snapshot, hchange, hcommit⟩ := h
  obtain ⟨_, _, rfl⟩ := Store.eq_of_commitApproval hcommit
  have hpromoted := Store.promoteAll_eq (f := Store.dossiers) (fun _ _ => rfl) commit.promoted s
  rw [← hchange]
  exact ⟨commit.resolvedAt,
    (Store.dossiers_close _ _ _ _).trans (congrArg (List.map _) hpromoted)⟩

theorem steps_approved (h : w.store.Intact) {a : Action} {id user : String} {t u : Store}
    (ha : a.approved? = some id) (hat : Approved id user w.store t)
    (hu : u.dossiers = t.dossiers) : Steps a w.store u := by
  obtain ⟨time, hdossiers⟩ := hat.dossiers
  obtain ⟨r, hr, rfl, hstatus, ⟨p, hp, hpid, -, hstrict⟩, -⟩ := hat
  refine Steps.of_map (hu.trans hdossiers) fun d hd => ?_
  by_cases hid : d.request.id = r.id
  · have hdr : d.request = r := h.requestIds.eq_of_key_eq (Store.mem_dossiers.mp hd).1 hr hid
    rw [if_pos hid]
    refine .approve (by rw [ha, hdr]) (hdr ▸ hstatus) ?_ _
    rintro ⟨q, hq, hqid, hfull⟩
    have hqp : q = p := h.projectIds.eq_of_key_eq hq hp (by rw [hqid, hdr, hpid])
    have hres := hstrict (hqp ▸ hfull)
    rwa [← hdr, (Store.mem_dossiers.mp hd).2] at hres
  · rw [if_neg hid]
    exact .refl _ _ d

theorem steps_reject (h : w.store.Intact) (id user : String) :
    Steps (.reject id user) w.store (exec (rejectRequest id user) w).2.store := by
  refine Steps.of_yields (rejectRequest_decides w id user) (fun v hv => hv.store) ?_
  rintro _ v ⟨r, hr, rfl, hterm, -, ⟨time, hv⟩, -⟩
  rw [hv]
  refine Steps.of_map (Store.dossiers_close _ _ _ _) fun d hd => ?_
  by_cases hid : d.request.id = r.id
  · have hdr : d.request = r := h.requestIds.eq_of_key_eq (Store.mem_dossiers.mp hd).1 hr hid
    rw [if_pos hid]
    exact .reject (by rw [hid]) (hdr ▸ hterm) time
  · rw [if_neg hid]
    exact .refl _ _ d

/-- Nothing changes but comments. -/
def SameBare (s t : Store) : Prop := t.dossiers.map (·.bare) = s.dossiers.map (·.bare)

instance : IsPreorder Store SameBare where
  refl _ := rfl
  trans _ _ _ h h' := h'.trans h

theorem sameBare_annotate (s : Store) (id : String) (comment : Json) :
    SameBare s (s.annotate id comment) := by
  have hd : (s.annotate id comment).dossiers = _ :=
    Store.dossiers_updateImpacts (s := s) (p := (·.id = id))
      (f := fun i => { i with comment := some comment }) fun _ => rfl
  rw [SameBare, hd, List.map_map]
  apply List.map_congr_left
  intro d _
  refine congrArg (Dossier.mk d.request) (Store.map_updateWhere ?_ d.impacts)
  intro _ _
  rfl

/-- A language model changes nothing but comments. -/
theorem sameBare_enrichRequest (setup : Setup) (job : EnrichmentJob) :
    Keeps SameBare (enrichRequest setup job) :=
  keeps_enrichRequest sameBare_annotate setup job

theorem Steps.of_sameBare {a : Action} {s t : Store} (h : SameBare s t) : Steps a s t := by
  refine .of_forall₂ ?_
  rw [SameBare, ← List.forall₂_eq_eq_eq, List.forall₂_map_left_iff, List.forall₂_map_right_iff] at h
  exact h.flip.imp fun d d' hd => .comment hd

/-- Every action takes a step with every request of an intact store. -/
theorem steps_step (setup : Setup) (h : w.store.Intact) (a : Action) :
    Steps a w.store (step setup w a).store := by
  have haside {α : Type} {o : Operation α} (ho : Keeps Store.Aside o) :
      Steps a w.store (exec o w).2.store :=
    Steps.of_eq (Store.dossiers_congr (ho w).requests (ho w).impacts)
  cases a with
  | enter row => exact haside (aside_write row)
  | objects change => exact haside (Keeps.store change)
  | create project component author title description submitted =>
    exact steps_create h project component author title description submitted
  | submit request user => exact steps_submit h request user
  | analyze request => exact steps_analyze h setup request
  | enrich assistant job => exact .of_sameBare (sameBare_enrichRequest _ job w)
  | acknowledge impact user =>
    exact Steps.of_yields (acknowledgeImpact_decides h impact user) (fun v hv => hv.store)
      fun _ _ hr => steps_resolve h rfl (fun time j hj => .acknowledged hj false time)
        (fun _ _ => rfl) hr
  | dismiss impact user =>
    exact Steps.of_yields (dismissImpact_decides h impact user) (fun v hv => hv.store)
      fun _ _ hr => steps_resolve h rfl (fun time j hj => .dismissed hj time) (fun _ _ => rfl) hr.1
  | reEvaluate request => exact steps_reEvaluate h request
  | sweep time threshold => exact steps_sweep h rfl time threshold
  | autoconfirm =>
    exact steps_sweep (w := { w with clock := ⟨w.clock.nanos + tick⟩ }) (a := .autoconfirm) h rfl
      w.clock (setup.settings.autoconfirmAfterHours * 3600)
  | approve request user =>
    exact Steps.of_yields (approveRequest_yields setup request user) (fun v hv => hv.store)
      fun _ _ hat => steps_approved h rfl hat.1 rfl
  | approveAndRebuild request user =>
    refine Steps.of_yields (approveAndRebuild_yields h setup request user) (fun v hv => hv.store) ?_
    rintro _ v ⟨s, project, g, hat, hv⟩
    exact steps_approved h rfl hat (by rw [hv]; rfl)
  | reject request user => exact steps_reject h request user
  | index project => exact haside (aside_indexProject setup project)
  | load project tree owner => exact haside (aside_loadDirectory setup project tree owner)

end ChangeImpact
