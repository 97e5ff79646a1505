import ChangeImpact.Proofs.Workflow.Advance

/-!
# The life of a request

Several statements set a status without looking at the one before, so whether a request
only takes legal steps rests on every action that leads to them. Over any run of the
workflow it does, and once it is approved or rejected neither its row nor what was said
about its impacts by the contributors changes again.
-/

namespace ChangeImpact

open Operation

/-- The moves that an action may make the status of a request take. -/
inductive LegalMove (request : String) : Action → ChangeStatus → ChangeStatus → Prop where
  | stay (a : Action) (s : ChangeStatus) : LegalMove request a s s
  | submit (user : String) : LegalMove request (.submit request user) .draft .pendingAnalysis
  | analyze : LegalMove request (.analyze request) .pendingAnalysis .analysisComplete
  | analyzeThrough : LegalMove request (.analyze request) .pendingAnalysis .pendingReview
  | review {a : Action} (action : a.isSettling = true) :
      LegalMove request a .analysisComplete .pendingReview
  | approve {a : Action} {s : ChangeStatus} (action : a.approved? = some request)
      (ready : s = .analysisComplete ∨ s = .pendingReview) : LegalMove request a s .approved
  | reject {s : ChangeStatus} (user : String) (undecided : s.isTerminal = false) :
      LegalMove request (.reject request user) s .rejected

/-- The moves of a run, one for each action. -/
inductive LegalRun (request : String) : List Action → ChangeStatus → ChangeStatus → Prop where
  | nil (s : ChangeStatus) : LegalRun request [] s s
  | cons {a : Action} {actions : List Action} {s t u : ChangeStatus}
      (first : LegalMove request a s t) (rest : LegalRun request actions t u) :
      LegalRun request (a :: actions) s u

/-- What the columns of an impact say about its resolution. -/
structure Resolution where
  impact : String
  acknowledged : Bool
  dismissed : Bool
  autoConfirmed : Bool
  acknowledgedAt : Option Instant

/-- The resolution columns of an impact. -/
def Impact.resolution (i : Impact) : Resolution :=
  ⟨i.id, i.acknowledged, i.dismissed, i.autoConfirmed, i.acknowledgedAt⟩

/-- The resolution columns of all impacts of a request. -/
def Store.resolutions (s : Store) (request : String) : List Resolution :=
  (s.impacts.filter (·.change = request)).map (·.resolution)

variable {strict : Prop} {a : Action} {d d' : Dossier}

/-- Looking at a request again moves its status at most from complete to review. -/
private theorem status_review (time : Instant) (d : Dossier) :
    (d.review time).request.status = d.request.status ∨
      d.request.status = .analysisComplete ∧ (d.review time).request.status = .pendingReview := by
  by_cases h : d.request.status = .analysisComplete ∧ d.isResolved
  · rw [Dossier.review, if_pos h]
    exact Or.inr ⟨h.1, rfl⟩
  · rw [Dossier.review, if_neg h]
    exact Or.inl rfl

/-- Every step of a dossier is a legal move of its status. -/
theorem Advance.legal (h : Advance strict a d d') :
    LegalMove d.request.id a d.request.status d'.request.status := by
  cases h with
  | comment same =>
    have hr : d'.bare.request = d.bare.request := by rw [same]
    have hs : d'.request.status = d.request.status := congrArg (·.status) hr
    rw [hs]
    exact .stay a _
  | submit action status time =>
    rw [action, status]
    exact .submit _
  | @analyze action status found _ time time' =>
    rw [action, status]
    rcases status_review time' ((d.setStatus .analysisComplete time).extend found) with h | ⟨-, h⟩
    · rw [h]
      exact .analyze
    · rw [h]
      exact .analyzeThrough
  | @settle action _ is _ time =>
    rcases status_review time (d.withImpacts is) with h | ⟨hs, h⟩
    · rw [h]
      exact .stay a _
    · rw [h, show d.request.status = .analysisComplete from hs]
      exact .review action
  | approve action status _ time => exact .approve action status
  | reject action status time =>
    rw [action]
    exact .reject _ status

/-- Nothing but a comment changes in the dossier of a decided request. -/
theorem Advance.frozen (h : Advance strict a d d') (ht : d.request.status.isTerminal = true) :
    d'.bare = d.bare := by
  cases h with
  | comment same => exact same
  | submit _ status =>
    rw [status] at ht
    cases ht
  | analyze _ status =>
    rw [status] at ht
    cases ht
  | settle _ status =>
    rw [status] at ht
    cases ht
  | approve _ status =>
    rcases status with status | status
    · rw [status] at ht
      cases ht
    · rw [status] at ht
      cases ht
  | reject _ status =>
    rw [status] at ht
    cases ht

section Runs

variable (setup : Setup) {w : World}

/-- After an action a request still has a dossier, one step further. -/
theorem exists_advance (h : w.store.Intact) (a : Action) {r : ChangeRequest}
    (hr : r ∈ w.store.requests) :
    ∃ d' ∈ (step setup w a).store.dossiers,
      Advance (w.store.isStrict r.project) a (w.store.dossier r) d' := by
  obtain ⟨kept, opened, heq, hkept, -⟩ := steps_step setup h a
  obtain ⟨d', hd', hadv⟩ := Store.exists_right_of_forall₂ hkept (List.mem_map_of_mem hr)
  exact ⟨d', heq ▸ List.mem_append_left _ hd', hadv⟩

/-- After an action a request has come one step further, unless it was just made. -/
theorem advance_origin (h : w.store.Intact) (a : Action) {r' : ChangeRequest}
    (hr' : r' ∈ (step setup w a).store.requests) :
    (∃ r ∈ w.store.requests, Advance (w.store.isStrict r.project) a (w.store.dossier r)
      ((step setup w a).store.dossier r')) ∨ ((step setup w a).store.dossier r').IsNew := by
  obtain ⟨kept, opened, heq, hkept, hopened⟩ := steps_step setup h a
  have hd : (step setup w a).store.dossier r' ∈ kept ++ opened := heq ▸ List.mem_map_of_mem hr'
  rcases List.mem_append.mp hd with hd | hd
  · obtain ⟨d, hmem, hadv⟩ := Store.exists_left_of_forall₂ hkept hd
    obtain ⟨hm, hdossier⟩ := Store.mem_dossiers.mp hmem
    exact Or.inl ⟨d.request, hm, hdossier.symm ▸ hadv⟩
  · exact Or.inr (hopened _ hd)

variable {setup}

/-- The status of a request takes only legal moves over any run. -/
theorem legalRun (h : Reachable setup w) (actions : List Action) {r : ChangeRequest}
    (hr : r ∈ w.store.requests) :
    ∃ r' ∈ (run setup w actions).store.requests,
      r'.id = r.id ∧ LegalRun r.id actions r.status r'.status := by
  induction actions generalizing w r with
  | nil => exact ⟨r, hr, rfl, .nil _⟩
  | cons a actions ih =>
    obtain ⟨d, hd, hadv⟩ := exists_advance setup h.intact a hr
    have hid : d.request.id = r.id := hadv.request.id
    obtain ⟨r', hr', hid', hrun⟩ := ih (h.step a) (Store.mem_dossiers.mp hd).1
    rw [hid] at hid' hrun
    exact ⟨r', hr', hid', .cons hadv.legal hrun⟩

/-- Over any run nothing but comments changes in the dossier of a decided request. -/
theorem frozen_run (h : Reachable setup w) (actions : List Action) {r : ChangeRequest}
    (hr : r ∈ w.store.requests) (ht : r.status.isTerminal = true) :
    r ∈ (run setup w actions).store.requests ∧
      ((run setup w actions).store.dossier r).bare = (w.store.dossier r).bare := by
  induction actions generalizing w with
  | nil => exact ⟨hr, rfl⟩
  | cons a actions ih =>
    obtain ⟨d, hd, hadv⟩ := exists_advance setup h.intact a hr
    have hbare := hadv.frozen ht
    have hreq : d.bare.request = r := by rw [hbare]; rfl
    obtain ⟨hmem, hdossier⟩ := Store.mem_dossiers.mp hd
    rw [show d.request = r from hreq] at hmem hdossier
    obtain ⟨hin, heq⟩ := ih (h.step a) hmem
    exact ⟨hin, by rw [← hbare, ← hdossier]; exact heq⟩

/-- The resolution columns are all in the dossier without its comments. -/
theorem resolutions_eq_of_bare {s t : Store} {r : ChangeRequest}
    (h : (t.dossier r).bare = (s.dossier r).bare) : t.resolutions r.id = s.resolutions r.id := by
  have hcols (u : Store) : u.resolutions r.id = (u.dossier r).bare.impacts.map (·.resolution) := by
    rw [Dossier.bare, List.map_map]
    rfl
  rw [hcols, hcols, h]

/-- After an owner rejects an undecided request it is rejected. -/
theorem exists_rejected (h : w.store.Intact) {r : ChangeRequest} (hr : r ∈ w.store.requests)
    (ht : r.status.isTerminal = false) {p : Project} (hp : p ∈ w.store.projects)
    (hid : p.id = r.project) :
    ∃ r' ∈ (step setup w (.reject r.id p.owner)).store.requests,
      r'.id = r.id ∧ r'.status = .rejected := by
  obtain ⟨_, w', he, time, hw'⟩ := (rejectRequest_succeeds h hr ht hp hid).exists_ok
  have hstep : step setup w (.reject r.id p.owner) = w' := congrArg Prod.snd he
  rw [hstep, hw']
  refine ⟨{ r with status := .rejected, updatedAt := time, resolvedAt := some time }, ?_, rfl, rfl⟩
  exact Store.mem_updateWhere.mpr ⟨r, hr, if_pos (decide_eq_true rfl)⟩

end Runs

/-- Requests take only legal steps from here on. -/
structure Lawful (setup : Setup) (w : World) : Prop where
  /-- Over any run each status takes one legal move with every action. -/
  moves : ∀ actions, ∀ r ∈ w.store.requests, ∃ r' ∈ (run setup w actions).store.requests,
    r'.id = r.id ∧ LegalRun r.id actions r.status r'.status
  /-- A request that is new after an action is a draft or waits for its analysis. -/
  births : ∀ a, ∀ r' ∈ (step setup w a).store.requests,
    (∃ r ∈ w.store.requests, r.id = r'.id) ∨ r'.status = .draft ∨ r'.status = .pendingAnalysis
  /-- Any undecided request can be rejected, by the owner of its project. -/
  rejectable : ∀ r ∈ w.store.requests, r.status.isTerminal = false →
    ∀ p ∈ w.store.projects, p.id = r.project →
      ∃ r' ∈ (step setup w (.reject r.id p.owner)).store.requests,
        r'.id = r.id ∧ r'.status = .rejected
  /-- Over any run the row of a decided request and the resolution of its impacts stay. -/
  final : ∀ actions, ∀ r ∈ w.store.requests, r.status.isTerminal = true →
    r ∈ (run setup w actions).store.requests ∧
      (run setup w actions).store.resolutions r.id = w.store.resolutions r.id

/-- From every reachable world on, requests take only legal steps. -/
theorem reachable_lawful {setup : Setup} {w : World} (h : Reachable setup w) : Lawful setup w where
  moves actions _ hr := legalRun h actions hr
  births a r' hr' := by
    obtain ⟨kept, opened, heq, hkept, hopened⟩ := steps_step setup h.intact a
    have hd : (step setup w a).store.dossier r' ∈ kept ++ opened := heq ▸ List.mem_map_of_mem hr'
    rcases List.mem_append.mp hd with hd | hd
    · obtain ⟨d, hmem, hadv⟩ := Store.exists_left_of_forall₂ hkept hd
      exact Or.inl ⟨d.request, (Store.mem_dossiers.mp hmem).1, hadv.request.id.symm⟩
    · exact Or.inr (hopened _ hd).status
  rejectable _ hr ht _ hp hid := exists_rejected h.intact hr ht hp hid
  final actions _ hr ht :=
    ⟨(frozen_run h actions hr ht).1, resolutions_eq_of_bare (frozen_run h actions hr ht).2⟩

/-- The request of the small project. -/
theorem sample_lawful : Reachable sampleSetup sampleWorld ∧
    sampleWorld.store.requests = [sampleRequest] ∧ Lawful sampleSetup sampleWorld :=
  ⟨reachable_sampleWorld, requests_sampleWorld, reachable_lawful reachable_sampleWorld⟩

end ChangeImpact
