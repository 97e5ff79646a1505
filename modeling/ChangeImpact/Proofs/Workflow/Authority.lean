import ChangeImpact.Proofs.Workflow.Lifecycle

/-!
# Who can do what

One action can change what is said about an impact only in a few ways, and each of them
needs the user whom it concerns: an impact is acknowledged or dismissed by its
contributor, or acknowledged for its age by a sweep. Likewise a request is submitted by
its author and decided by the owner of its project. Actions that reach rows which nobody
named, such as a sweep or a second look at a request, are no exception.
-/

namespace ChangeImpact

open Operation

namespace Action

/-- The action succeeds. -/
def Passes (setup : Setup) (w : World) (a : Action) : Prop :=
  ∃ x, (exec (a.operation setup) w).1 = .ok x

/-- The actions that acknowledge impacts for their age. -/
def isSweep : Action → Bool
  | sweep .. | autoconfirm => true
  | _ => false

end Action

/-- What an action can make of an impact. -/
inductive Impact.Turns (passes : Prop) (a : Action) (i : Impact) : Impact → Prop where
  /-- Nothing changes but the comment. -/
  | comment (comment : Option Json) : Turns passes a i { i with comment }
  | acknowledge (action : a = .acknowledge i.id i.contributor) (passed : passes)
      (isOpen : i.isResolved = false) (time : Instant) :
      Turns passes a i (i.acknowledge false time)
  | dismiss (action : a = .dismiss i.id i.contributor) (passed : passes)
      (isOpen : i.isResolved = false) (method : i.method ≠ .parser) (time : Instant) :
      Turns passes a i (i.dismiss time)
  | confirm (action : a.isSweep = true) (passed : passes) (isOpen : i.isResolved = false)
      (time : Instant) : Turns passes a i (i.acknowledge true time)

/-- Nobody has resolved the impact. -/
structure Impact.IsUntouched (i : Impact) : Prop where
  acknowledged : i.acknowledged = false
  dismissed : i.dismissed = false
  autoConfirmed : i.autoConfirmed = false

/-- What an action can make of the status of a request. -/
inductive ChangeRequest.Turns (passes : Prop) (projects : List Project) (a : Action)
    (r r' : ChangeRequest) : Prop where
  | stay (same : r'.status = r.status)
  | submit (action : a = .submit r.id r.author) (passed : passes) (before : r.status = .draft)
      (after : r'.status = .pendingAnalysis)
  /-- The status moves on between the submission and the decision. -/
  | advance (before : r.status = .pendingAnalysis ∨ r.status = .analysisComplete)
      (after : r'.status = .analysisComplete ∨ r'.status = .pendingReview)
  | approve {p : Project} (project : p ∈ projects) (owns : p.id = r.project)
      (action : a = .approve r.id p.owner ∨ a = .approveAndRebuild r.id p.owner) (passed : passes)
      (before : r.status = .analysisComplete ∨ r.status = .pendingReview)
      (after : r'.status = .approved)
  | reject {p : Project} (project : p ∈ projects) (owns : p.id = r.project)
      (action : a = .reject r.id p.owner) (passed : passes)
      (before : r.status.isTerminal = false) (after : r'.status = .rejected)

/-- Every row of a table takes a step, and rows may be added. -/
structure Store.Evolves {α : Type} (R : α → α → Prop) (IsNew : α → Prop) (xs ys : List α) :
    Prop where
  kept : ∀ x ∈ xs, ∃ y ∈ ys, R x y
  origin : ∀ y ∈ ys, (∃ x ∈ xs, R x y) ∨ IsNew y

section Evolves

variable {α : Type} {R : α → α → Prop} {IsNew : α → Prop} {xs ys : List α}

theorem Store.Evolves.of_forall₂ (h : List.Forall₂ R xs ys) : Store.Evolves R IsNew xs ys where
  kept _ hx := Store.exists_right_of_forall₂ h hx
  origin _ hy := Or.inl (Store.exists_left_of_forall₂ h hy)

theorem Store.Evolves.of_append (hR : ∀ x, R x x) (hnew : ∀ y ∈ ys, IsNew y) :
    Store.Evolves R IsNew xs (xs ++ ys) where
  kept x hx := ⟨x, List.mem_append_left _ hx, hR x⟩
  origin y hy := (List.mem_append.mp hy).imp (fun hy => ⟨y, hy, hR y⟩) (hnew y)

theorem Store.Evolves.of_eq (hR : ∀ x, R x x) (h : ys = xs) : Store.Evolves R IsNew xs ys :=
  .of_forall₂ (h ▸ List.forall₂_same.mpr fun x _ => hR x)

end Evolves

/-! ## Impacts -/

theorem Impact.Turns.refl (passes : Prop) (a : Action) (i : Impact) : i.Turns passes a i :=
  .comment i.comment

/-- Every impact is changed in a given way. -/
def Store.Revises (R : Impact → Impact → Prop) (s t : Store) : Prop :=
  List.Forall₂ R s.impacts t.impacts

instance {R : Impact → Impact → Prop} [IsPreorder Impact R] :
    IsPreorder Store (Store.Revises R) where
  refl _ := List.forall₂_same.mpr fun i _ => refl_of R i
  trans _ _ _ h h' := Store.forall₂_comp (R := R) (S := R) (fun _ _ _ hi hj => trans_of R hi hj) h h'

theorem Store.revises_updateWhere {R : Impact → Impact → Prop} [IsPreorder Impact R] {s t : Store}
    {p : Impact → Bool} {f : Impact → Impact} (hf : ∀ i, p i = true → R i (f i))
    (ht : t.impacts = Store.updateWhere p f s.impacts) : Store.Revises R s t := by
  rw [Store.Revises, ht]
  refine List.forall₂_map_right_iff.mpr (List.forall₂_same.mpr fun i _ => ?_)
  by_cases hp : p i = true
  · rw [if_pos hp]
    exact hf i hp
  · rw [if_neg hp]
    exact refl_of R i

/-- The impacts differ at most in what a language model said. -/
def Impact.Recommented (i j : Impact) : Prop := ∃ comment, j = { i with comment }

instance : IsPreorder Impact Impact.Recommented where
  refl i := ⟨i.comment, rfl⟩
  trans := by
    rintro i _ _ ⟨comment, rfl⟩ ⟨comment', rfl⟩
    exact ⟨comment', rfl⟩

/-- The impact is acknowledged for its age, if at all. -/
def Impact.Confirmed (i j : Impact) : Prop :=
  j = i ∨ i.isResolved = false ∧ ∃ time, j = i.acknowledge true time

instance : IsPreorder Impact Impact.Confirmed where
  refl _ := Or.inl rfl
  trans := by
    rintro i j k hij (rfl | ⟨hopen, time, rfl⟩)
    · exact hij
    · rcases hij with rfl | ⟨-, time', rfl⟩
      · exact Or.inr ⟨hopen, time, rfl⟩
      · cases hopen

theorem recommented_enrichRequest (setup : Setup) (job : EnrichmentJob) :
    Keeps (Store.Revises Impact.Recommented) (enrichRequest setup job) :=
  keeps_enrichRequest (fun _ _ comment =>
    Store.revises_updateWhere (fun _ _ => ⟨some comment, rfl⟩) rfl) setup job

theorem confirmed_sweep (time : Instant) (threshold : Int) :
    Keeps (Store.Revises Impact.Confirmed) (sweep time threshold) := by
  have hset {s t : Store} {id : String} {status : ChangeStatus} {now : Instant}
      (h : s.setStatus id status now = .ok t) : Store.Revises Impact.Confirmed s t := by
    rw [Store.eq_of_setStatus h]
    exact refl_of (Store.Revises Impact.Confirmed) s
  refine keeps_sweep (fun s id now => ?_) (keeps_reEvaluate fun _ _ _ _ _ h => hset h) time threshold
  refine Store.revises_updateWhere (fun i hi => Or.inr ⟨?_, now, rfl⟩) rfl
  simpa using (Bool.and_eq_true_iff.mp hi).2

theorem Store.impacts_insertRequest {s t : Store} {r : ChangeRequest}
    (h : s.insertRequest r = .ok t) : t.impacts = s.impacts := by
  obtain ⟨-, h⟩ := Store.demand_bind_ok.mp h
  obtain ⟨-, h⟩ := Store.demand_bind_ok.mp h
  cases h
  rfl

/-- An approval says nothing about impacts. -/
theorem Approved.impacts {id user : String} {s t : Store} (h : Approved id user s t) :
    t.impacts = s.impacts := by
  obtain ⟨-, -, -, -, -, commit, snapshot, -, hcommit⟩ := h
  obtain ⟨_, _, rfl⟩ := Store.eq_of_commitApproval hcommit
  exact Store.promoteAll_eq (f := Store.impacts) (fun _ _ => rfl) commit.promoted s

section Impacts

variable {setup : Setup} {w w' : World} {R : Impact → Impact → Prop}

/-- Resolving an impact changes that impact alone. -/
theorem Resolved.evolves (h : w.store.Intact) {f : Instant → Impact → Impact} {id user : String}
    (hr : Resolved f id user w w') (hR : ∀ i, R i i)
    (hf : ∀ time, ∀ i ∈ w.store.impacts, i.id = id → i.contributor = user →
      i.isResolved = false → R i (f time i)) :
    Store.Evolves R Impact.IsUntouched w.store.impacts w'.store.impacts := by
  obtain ⟨i, hi, rfl, rfl, hopen, -, ⟨time, time', hs⟩, -⟩ := hr
  have himpacts : w'.store.impacts = Store.updateWhere (fun j => j.id = i.id && !j.isResolved)
      (f time) w.store.impacts := by
    rw [hs, Store.impacts_review]
    rfl
  rw [himpacts]
  refine .of_forall₂ (List.forall₂_map_right_iff.mpr (List.forall₂_same.mpr fun j hj => ?_))
  by_cases hp : (decide (j.id = i.id) && !j.isResolved) = true
  · rw [if_pos hp]
    have hji : j = i :=
      h.impactIds.eq_of_key_eq hj hi (of_decide_eq_true (Bool.and_eq_true_iff.mp hp).1)
    subst hji
    exact hf time j hj rfl rfl hopen
  · rw [if_neg hp]
    exact hR j

/-- What an action makes of the impacts. -/
theorem impacts_evolve (setup : Setup) (h : w.store.Intact) (a : Action) :
    Store.Evolves (Impact.Turns (a.Passes setup w) a) Impact.IsUntouched w.store.impacts
      (step setup w a).store.impacts := by
  have hrefl := Impact.Turns.refl (a.Passes setup w) a
  by_cases hne : (step setup w a).store = w.store
  · exact .of_eq hrefl (congrArg Store.impacts hne)
  have haside {α : Type} {o : Operation α} (ho : Keeps Store.Aside o) :
      Store.Evolves (Impact.Turns (a.Passes setup w) a) Impact.IsUntouched w.store.impacts
        (exec o w).2.store.impacts :=
    .of_eq hrefl (ho w).impacts
  have hconfirm {t : Store} (hpass : a.Passes setup w) (hsweep : a.isSweep = true)
      (ht : Store.Revises Impact.Confirmed w.store t) :
      Store.Evolves (Impact.Turns (a.Passes setup w) a) Impact.IsUntouched w.store.impacts
        t.impacts := by
    refine .of_forall₂ (ht.imp ?_)
    rintro i j (rfl | ⟨hopen, time, rfl⟩)
    · exact hrefl j
    · exact .confirm hsweep hpass hopen time
  cases a with
  | enter row => exact haside (aside_write row)
  | objects change => exact haside (Keeps.store change)
  | create project component author title description submitted =>
    obtain ⟨r, -, hi, -⟩ := (createRequest_decides w project component author title description
      submitted).of_changed (fun v hv => hv.store) hne
    exact .of_eq hrefl (Store.impacts_insertRequest hi)
  | submit request user =>
    obtain ⟨-, -, r, -, -, -, -, time, hv⟩ :=
      (submitRequest_decides w request user).of_changed (fun v hv => hv.store) hne
    exact .of_eq hrefl ((congrArg Store.impacts hv).trans rfl)
  | analyze request =>
    obtain ⟨-, -, r, -, -, -, found, hfits, ⟨s, time, time', hcommit, hv⟩, -⟩ :=
      (analyzeRequest_yields setup request h.requestIds (fun _ hv => hv) (Or.inl h)).of_changed
        (fun v hv => hv.store) hne
    have himpacts : (step setup w (.analyze request)).store.impacts =
        w.store.impacts ++ found.impacts := by
      rw [← Store.impacts_commitAnalysis hcommit]
      exact (congrArg Store.impacts hv).trans Store.impacts_review
    rw [himpacts]
    refine .of_append hrefl fun i hi => ?_
    obtain ⟨x, -, time, id, rfl⟩ := Store.exists_left_of_forall₂ hfits.impacts hi
    exact ⟨rfl, rfl, rfl⟩
  | enrich assistant job =>
    refine .of_forall₂ ((recommented_enrichRequest { setup with assistant } job w).imp ?_)
    rintro i _ ⟨comment, rfl⟩
    exact .comment comment
  | acknowledge impact user =>
    obtain ⟨x, hx, hr⟩ :=
      (acknowledgeImpact_decides h impact user).of_changed (fun v hv => hv.store) hne
    refine hr.evolves h hrefl ?_
    rintro time i - rfl rfl hopen
    exact .acknowledge rfl ⟨x, hx⟩ hopen time
  | dismiss impact user =>
    obtain ⟨x, hx, hr, j, hj, hjid, hmethod⟩ :=
      (dismissImpact_decides h impact user).of_changed (fun v hv => hv.store) hne
    refine hr.evolves h hrefl ?_
    rintro time i hi rfl rfl hopen
    exact .dismiss rfl ⟨x, hx⟩ hopen (h.impactIds.eq_of_key_eq hj hi hjid ▸ hmethod) time
  | reEvaluate request =>
    obtain ⟨-, -, ⟨time, hv⟩, -⟩ := (reEvaluate_yields (E := w.Untouched) h.requestIds
      fun _ => .refl w).of_changed (fun v hv => hv.store) hne
    exact .of_eq hrefl ((congrArg Store.impacts hv).trans Store.impacts_review)
  | sweep time threshold =>
    obtain ⟨x, hx, -⟩ := (sweep_decides h time threshold).of_changed (fun v hv => hv.store) hne
    exact hconfirm ⟨x, hx⟩ rfl (confirmed_sweep time threshold w)
  | autoconfirm =>
    obtain ⟨x, hx, -⟩ := Yields.of_changed (a := autoconfirm setup.settings)
      (Yields.now (sweep_decides (w := { w with clock := ⟨w.clock.nanos + tick⟩ }) h _ _))
      (fun v hv => hv.store) hne
    exact hconfirm ⟨x, hx⟩ rfl (Keeps.bind Keeps.now (fun t => confirmed_sweep t _) w)
  | approve request user =>
    obtain ⟨-, -, hat, -⟩ :=
      (approveRequest_yields setup request user).of_changed (fun v hv => hv.store) hne
    exact .of_eq hrefl hat.impacts
  | approveAndRebuild request user =>
    obtain ⟨-, -, s, project, g, hat, hv⟩ :=
      (approveAndRebuild_yields h setup request user).of_changed (fun v hv => hv.store) hne
    exact .of_eq hrefl ((congrArg Store.impacts hv).trans hat.impacts)
  | reject request user =>
    obtain ⟨-, -, r, -, -, -, -, ⟨time, hv⟩, -⟩ :=
      (rejectRequest_decides w request user).of_changed (fun v hv => hv.store) hne
    exact .of_eq hrefl ((congrArg Store.impacts hv).trans rfl)
  | index project => exact haside (aside_indexProject setup project)
  | load project tree owner => exact haside (aside_loadDirectory setup project tree owner)

end Impacts

/-! ## Requests -/

section Requests

variable {setup : Setup} {w : World} {a : Action} {r r' : ChangeRequest}

/-- The statuses that a request may take with an action are those that the user may give it. -/
theorem ChangeRequest.turns_of_legalMove (h : w.store.Intact) (hr : r ∈ w.store.requests)
    (hr' : r' ∈ (step setup w a).store.requests) (hid : r'.id = r.id)
    (hmove : LegalMove r.id a r.status r'.status) :
    r.Turns (a.Passes setup w) w.store.projects a r' := by
  by_cases hsame : r'.status = r.status
  · exact .stay hsame
  have hne : (step setup w a).store ≠ w.store := by
    intro heq
    rw [heq] at hr'
    exact hsame (congrArg _ (h.requestIds.eq_of_key_eq hr' hr hid))
  have heq {q : ChangeRequest} (hq : q ∈ w.store.requests) (hqid : q.id = r.id) : q = r :=
    h.requestIds.eq_of_key_eq hq hr hqid
  generalize hs : r.status = s at hmove
  generalize ht : r'.status = t at hmove
  cases hmove with
  | stay => exact absurd (ht.trans hs.symm) hsame
  | submit user =>
    obtain ⟨x, hx, q, hq, hqid, hauthor, -⟩ :=
      (submitRequest_decides w r.id user).of_changed (fun v hv => hv.store) hne
    rw [heq hq hqid] at hauthor
    exact .submit (by rw [hauthor]) ⟨x, hx⟩ hs ht
  | analyze => exact .advance (Or.inl hs) (Or.inl ht)
  | analyzeThrough => exact .advance (Or.inl hs) (Or.inr ht)
  | review => exact .advance (Or.inr hs) (Or.inr ht)
  | approve action ready =>
    have happroved {s : Store} {user : String} (hat : Approved r.id user w.store s) :
        ∃ p ∈ w.store.projects, p.id = r.project ∧ p.owner = user := by
      obtain ⟨q, hq, hqid, -, ⟨p, hp, hpid, howner, -⟩, -⟩ := hat
      exact ⟨p, hp, heq hq hqid ▸ hpid, howner⟩
    cases a with
    | approve request user =>
      cases action
      obtain ⟨x, hx, hat, -⟩ :=
        (approveRequest_yields setup r.id user).of_changed (fun v hv => hv.store) hne
      obtain ⟨p, hp, hpid, rfl⟩ := happroved hat
      exact .approve hp hpid (Or.inl rfl) ⟨x, hx⟩ (hs ▸ ready) ht
    | approveAndRebuild request user =>
      cases action
      obtain ⟨x, hx, s', project, g, hat, -⟩ :=
        (approveAndRebuild_yields h setup r.id user).of_changed (fun v hv => hv.store) hne
      obtain ⟨p, hp, hpid, rfl⟩ := happroved hat
      exact .approve hp hpid (Or.inr rfl) ⟨x, hx⟩ (hs ▸ ready) ht
    | _ => cases action
  | reject user undecided =>
    obtain ⟨x, hx, q, hq, hqid, -, ⟨p, hp, hpid, rfl⟩, -⟩ :=
      (rejectRequest_decides w r.id user).of_changed (fun v hv => hv.store) hne
    exact .reject hp (heq hq hqid ▸ hpid) rfl ⟨x, hx⟩ (hs ▸ undecided) ht

/-- What an action makes of the requests. -/
theorem requests_evolve (setup : Setup) (h : w.store.Intact) (a : Action) :
    Store.Evolves (fun r r' => r.Same r' ∧ r.Turns (a.Passes setup w) w.store.projects a r')
      (fun r => r.status = .draft ∨ r.status = .pendingAnalysis) w.store.requests
      (step setup w a).store.requests := by
  obtain ⟨kept, opened, heq, hkept, hopened⟩ := steps_step setup h a
  have hadvance {d d' : Dossier} {strict : Prop} (hd : d ∈ w.store.dossiers)
      (hd' : d' ∈ (step setup w a).store.dossiers) (hadv : Advance strict a d d') :
      d.request.Same d'.request ∧
        d.request.Turns (a.Passes setup w) w.store.projects a d'.request :=
    ⟨hadv.request, ChangeRequest.turns_of_legalMove h (Store.mem_dossiers.mp hd).1
      (Store.mem_dossiers.mp hd').1 hadv.request.id hadv.legal⟩
  refine ⟨fun r hr => ?_, fun r' hr' => ?_⟩
  · have hd : w.store.dossier r ∈ w.store.dossiers := List.mem_map_of_mem hr
    obtain ⟨d', hd', hadv⟩ := Store.exists_right_of_forall₂ hkept hd
    have hmem : d' ∈ (step setup w a).store.dossiers := heq ▸ List.mem_append_left _ hd'
    exact ⟨d'.request, (Store.mem_dossiers.mp hmem).1, hadvance hd hmem hadv⟩
  · have hd' : (step setup w a).store.dossier r' ∈ (step setup w a).store.dossiers :=
      List.mem_map_of_mem hr'
    rcases List.mem_append.mp (heq ▸ hd') with hd | hd
    · obtain ⟨d, hmem, hadv⟩ := Store.exists_left_of_forall₂ hkept hd
      exact Or.inl ⟨d.request, (Store.mem_dossiers.mp hmem).1, hadvance hmem hd' hadv⟩
    · exact Or.inr (hopened _ hd).status

end Requests

end ChangeImpact
