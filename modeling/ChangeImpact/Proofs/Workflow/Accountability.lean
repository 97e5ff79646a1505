import ChangeImpact.Proofs.Workflow.Authority

/-!
# Who did what

Whatever a run leaves in the tables about a resolution or a decision has a cause in the
run: an action that succeeded, called by the user who may call it, after which the row
said what it says at the end. For impacts that is their contributor or a sweep, for
decisions the owner of the project, for submissions the author.
-/

namespace ChangeImpact

open Operation

variable {setup : Setup} {w : World}

/-! ## Causes in a run -/

theorem run_append (xs ys : List Action) :
    run setup w (xs ++ ys) = run setup (run setup w xs) ys :=
  List.foldl_append

theorem grows_run (actions : List Action) : Store.Grows w.store (run setup w actions).store := by
  induction actions generalizing w with
  | nil => exact refl_of Store.Grows w.store
  | cons a actions ih => exact trans_of Store.Grows (grows_step setup w a) ih

/-- Somewhere in a run, in the world of that moment, an action has a property. -/
def Occurs (setup : Setup) (w : World) (actions : List Action) (C : World → Action → Prop) : Prop :=
  ∃ before a after, actions = before ++ a :: after ∧ C (run setup w before) a

theorem Occurs.concat {actions : List Action} {C : World → Action → Prop}
    (h : Occurs setup w actions C) (a : Action) : Occurs setup w (actions ++ [a]) C := by
  obtain ⟨before, b, after, rfl, hC⟩ := h
  exact ⟨before, b, after ++ [a], by rw [List.append_assoc, List.cons_append], hC⟩

theorem Occurs.imp {actions : List Action} {C D : World → Action → Prop}
    (h : Occurs setup w actions C) (hD : ∀ v a, C v a → D v a) : Occurs setup w actions D := by
  obtain ⟨before, a, after, heq, hC⟩ := h
  exact ⟨before, a, after, heq, hD _ _ hC⟩

/-- What holds of a row after a run, but of no row at its start, has a cause in the run. It is
enough that each step either is the cause or finds a row that has the same causes. -/
theorem occurs_of_mem {α : Type} {I : World → Prop} {T : Store → List α} {P : α → Prop}
    {C : α → World → Action → Prop} (hI : I w) (hkeep : ∀ v a, I v → I (step setup v a))
    (hstart : ∀ y ∈ T w.store, ¬P y)
    (hstep : ∀ v a, I v → ∀ y ∈ T (step setup v a).store, P y →
      C y v a ∨ ∃ x ∈ T v.store, P x ∧ ∀ u b, C x u b → C y u b)
    (actions : List Action) {y : α} (hy : y ∈ T (run setup w actions).store) (hP : P y) :
    Occurs setup w actions (C y) := by
  have hinv (actions : List Action) : I (run setup w actions) := by
    induction actions using List.reverseRecOn with
    | nil => exact hI
    | append_singleton actions a ih => exact run_append (w := w) actions [a] ▸ hkeep _ a ih
  induction actions using List.reverseRecOn generalizing y with
  | nil => exact absurd hP (hstart y hy)
  | append_singleton actions a ih =>
    rw [run_append] at hy
    rcases hstep _ a (hinv actions) y hy hP with hC | ⟨x, hx, hPx, hC⟩
    · exact ⟨actions, a, [], rfl, hC⟩
    · exact ((ih hx hPx).imp hC).concat a

/-! ## Impacts -/

/-- Between two stores the impact goes from open to what it says of its resolution. -/
def Impact.ResolvedIn (j : Impact) (s t : Store) : Prop :=
  (∃ i ∈ s.impacts, i.id = j.id ∧ i.isResolved = false) ∧
    ∃ k ∈ t.impacts, k.resolution = j.resolution

/-- What is not resolved is untouched. -/
def Store.OpenUntouched (s : Store) : Prop :=
  ∀ i ∈ s.impacts, i.isResolved = false → i.IsUntouched

theorem Impact.open_iff {i : Impact} :
    i.isResolved = false ↔ i.acknowledged = false ∧ i.dismissed = false := by
  rw [Impact.isResolved, Bool.or_eq_false_iff]

/-- What an action resolves says so. -/
theorem openUntouched_step (h : w.store.Intact) (hw : w.store.OpenUntouched) (a : Action) :
    (step setup w a).store.OpenUntouched := by
  intro j hj hopen
  rcases (impacts_evolve setup h a).origin j hj with ⟨i, hi, hturn⟩ | hnew
  · cases hturn with
    | comment comment =>
      obtain ⟨hack, hdismissed, hauto⟩ := hw i hi hopen
      exact ⟨hack, hdismissed, hauto⟩
    | acknowledge => cases (Impact.open_iff.mp hopen).1
    | dismiss => cases (Impact.open_iff.mp hopen).2
    | confirm => cases (Impact.open_iff.mp hopen).1
  · exact hnew

/-- The action gives an impact the flags that it has. -/
inductive Impact.Explained (j : Impact) : Action → Prop where
  | acknowledged (flag : j.acknowledged = true) (kept : j.dismissed = false)
      (personal : j.autoConfirmed = false) : Explained j (.acknowledge j.id j.contributor)
  | dismissed (flag : j.dismissed = true) (kept : j.acknowledged = false)
      (personal : j.autoConfirmed = false) (method : j.method ≠ .parser) :
      Explained j (.dismiss j.id j.contributor)
  | confirmed {a : Action} (sweep : a.isSweep = true) (flag : j.autoConfirmed = true)
      (kept : j.dismissed = false) : Explained j a

/-- Whatever is said about the resolution of an impact after a run has a cause in the run. -/
theorem occurs_of_resolved (h : w.store.Intact) (hi : ∀ i ∈ w.store.impacts, i.IsUntouched)
    (actions : List Action) {j : Impact} (hj : j ∈ (run setup w actions).store.impacts)
    (hsaid : ¬j.IsUntouched) :
    Occurs setup w actions fun v a =>
      j.Explained a ∧ a.Passes setup v ∧ j.ResolvedIn v.store (step setup v a).store := by
  refine occurs_of_mem (I := fun v => v.store.Intact ∧ v.store.OpenUntouched)
    (T := (·.impacts)) (P := fun i => ¬i.IsUntouched)
    (C := fun j v a =>
      j.Explained a ∧ a.Passes setup v ∧ j.ResolvedIn v.store (step setup v a).store)
    ⟨h, fun i hm _ => hi i hm⟩
    (fun v a hv => ⟨(grows_step setup v a).intact hv.1, openUntouched_step hv.1 hv.2 a⟩)
    (fun i hm hn => hn (hi i hm)) (fun v a hv y hy hn => ?_) actions hj hsaid
  rcases (impacts_evolve setup hv.1 a).origin y hy with ⟨x, hx, hturn⟩ | hnew
  · have hin {k : Impact} (hopen : x.isResolved = false) (hid : x.id = k.id)
        (hk : k ∈ (step setup v a).store.impacts) :
        k.ResolvedIn v.store (step setup v a).store :=
      ⟨⟨x, hx, hid, hopen⟩, k, hk, rfl⟩
    cases hturn with
    | comment comment =>
      refine Or.inr ⟨x, hx, fun ⟨hack, hdismissed, hauto⟩ => hn ⟨hack, hdismissed, hauto⟩, ?_⟩
      rintro u b ⟨hexplained, hpassed, hresolved⟩
      refine ⟨?_, hpassed, hresolved⟩
      cases hexplained with
      | acknowledged flag kept personal => exact .acknowledged flag kept personal
      | dismissed flag kept personal method => exact .dismissed flag kept personal method
      | confirmed sweep flag kept => exact .confirmed sweep flag kept
    | acknowledge action passed hopen time =>
      subst action
      exact Or.inl ⟨.acknowledged (j := x.acknowledge false time) rfl
        (Impact.open_iff.mp hopen).2 rfl, passed, hin hopen rfl hy⟩
    | dismiss action passed hopen method time =>
      subst action
      exact Or.inl ⟨.dismissed (j := x.dismiss time) rfl (Impact.open_iff.mp hopen).1
        (hv.2 x hx hopen).autoConfirmed method, passed, hin hopen rfl hy⟩
    | confirm action passed hopen time =>
      exact Or.inl ⟨.confirmed action rfl (Impact.open_iff.mp hopen).2, passed,
        hin hopen rfl hy⟩
  · exact absurd hnew hn

/-! ## Requests -/

/-- The actions by which a user brings about the decision on a request. -/
def ChangeRequest.decisions (r : ChangeRequest) (user : String) : List Action :=
  match r.status with
  | .approved => [.approve r.id user, .approveAndRebuild r.id user]
  | .rejected => [.reject r.id user]
  | _ => []

/-- Between two stores the request goes from undecided to its status. -/
def ChangeRequest.DecidedIn (r : ChangeRequest) (s t : Store) : Prop :=
  (∃ q ∈ s.requests, q.id = r.id ∧ q.status.isTerminal = false) ∧
    ∃ q ∈ t.requests, q.id = r.id ∧ q.status = r.status

/-- The decision on a request has a cause in the run: an action of the owner of its project. -/
theorem occurs_of_decided (h : w.store.Intact)
    (hr : ∀ r ∈ w.store.requests, r.status.isTerminal = false) (actions : List Action)
    {r : ChangeRequest} (hm : r ∈ (run setup w actions).store.requests)
    (hdecided : r.status.isTerminal = true) :
    ∃ p ∈ (run setup w actions).store.projects, p.id = r.project ∧
      Occurs setup w actions fun v a =>
        a ∈ r.decisions p.owner ∧ a.Passes setup v ∧
          r.DecidedIn v.store (step setup v a).store := by
  suffices hcause : Occurs setup w actions fun v a =>
      ∃ p ∈ v.store.projects, p.id = r.project ∧ a ∈ r.decisions p.owner ∧ a.Passes setup v ∧
        r.DecidedIn v.store (step setup v a).store by
    obtain ⟨before, a, after, rfl, p, hp, hpid, hcause⟩ := hcause
    refine ⟨p, ?_, hpid, before, a, after, rfl, hcause⟩
    rw [run_append]
    exact (grows_run (a :: after)).projects hp
  refine occurs_of_mem (I := fun v => v.store.Intact) (T := (·.requests))
    (P := fun r => r.status.isTerminal = true)
    (C := fun r v a => ∃ p ∈ v.store.projects, p.id = r.project ∧ a ∈ r.decisions p.owner ∧
      a.Passes setup v ∧ r.DecidedIn v.store (step setup v a).store)
    h (fun v a hv => (grows_step setup v a).intact hv)
    (fun r hm hd => by rw [hr r hm] at hd; cases hd) (fun v a hv y hy hd => ?_) actions hm hdecided
  rcases (requests_evolve setup hv a).origin y hy with ⟨x, hx, hsame, hturn⟩ | hnew
  · cases hturn with
    | stay same =>
      refine Or.inr ⟨x, hx, same ▸ hd, ?_⟩
      rintro u b ⟨p, hp, hpid, hb, hpassed, hin⟩
      refine ⟨p, hp, hpid.trans hsame.project.symm, ?_, hpassed, ?_⟩
      · rwa [ChangeRequest.decisions, same, hsame.id]
      · rwa [ChangeRequest.DecidedIn, same, hsame.id]
    | submit _ _ _ hafter => rw [hafter] at hd; cases hd
    | advance _ hafter =>
      rcases hafter with hafter | hafter
      · rw [hafter] at hd; cases hd
      · rw [hafter] at hd; cases hd
    | @approve p hp hpid action passed hbefore hafter =>
      refine Or.inl ⟨p, hp, hpid.trans hsame.project.symm, ?_, passed,
        ⟨x, hx, hsame.id.symm, ?_⟩, y, hy, rfl, rfl⟩
      · rw [ChangeRequest.decisions, hafter, hsame.id]
        simpa using action
      · rcases hbefore with hbefore | hbefore
        · rw [hbefore]; rfl
        · rw [hbefore]; rfl
    | @reject p hp hpid action passed hbefore hafter =>
      refine Or.inl ⟨p, hp, hpid.trans hsame.project.symm, ?_, passed,
        ⟨x, hx, hsame.id.symm, hbefore⟩, y, hy, rfl, rfl⟩
      rw [ChangeRequest.decisions, hafter, hsame.id, action]
      exact List.mem_singleton_self _
  · rcases hnew with hnew | hnew
    · rw [hnew] at hd; cases hd
    · rw [hnew] at hd; cases hd

/-- A request that was a draft and is neither a draft nor rejected was submitted by its author. -/
theorem occurs_of_submitted (h : w.store.Intact) (actions : List Action) {q r : ChangeRequest}
    (hq : q ∈ w.store.requests) (hdraft : q.status = .draft)
    (hm : r ∈ (run setup w actions).store.requests) (hid : r.id = q.id)
    (hentered : r.status ≠ .draft ∧ r.status ≠ .rejected) :
    Occurs setup w actions fun v a =>
      a = .submit r.id r.author ∧ a.Passes setup v ∧
        ∃ q' ∈ v.store.requests, q'.id = r.id ∧ q'.status = .draft := by
  refine occurs_of_mem
    (I := fun v => v.store.Intact ∧ ∃ x ∈ v.store.requests, x.id = q.id) (T := (·.requests))
    (P := fun r => r.id = q.id ∧ r.status ≠ .draft ∧ r.status ≠ .rejected)
    (C := fun r v a => a = .submit r.id r.author ∧ a.Passes setup v ∧
      ∃ q' ∈ v.store.requests, q'.id = r.id ∧ q'.status = .draft)
    ⟨h, q, hq, rfl⟩ (fun v a hv => ?_) (fun y hy hy' => ?_) (fun v a hv y hy hP => ?_) actions hm
    ⟨hid, hentered⟩
  · obtain ⟨hintact, x, hx, hxid⟩ := hv
    obtain ⟨y, hy, hsame, -⟩ := (requests_evolve setup hintact a).kept x hx
    exact ⟨(grows_step setup v a).intact hintact, y, hy, hsame.id.trans hxid⟩
  · rw [h.requestIds.eq_of_key_eq hy hq hy'.1] at hy'
    exact hy'.2.1 hdraft
  · obtain ⟨hintact, x, hx, hxid⟩ := hv
    obtain ⟨hyid, hnotDraft, hnotRejected⟩ := hP
    obtain ⟨y', hy', hsame, hturn⟩ := (requests_evolve setup hintact a).kept x hx
    have hintact' := (grows_step setup v a).intact hintact
    obtain rfl : y' = y :=
      hintact'.requestIds.eq_of_key_eq hy' hy (hsame.id.trans (hxid.trans hyid.symm))
    have hsame' : ∀ (u : World) (b : Action), (b = .submit x.id x.author ∧ b.Passes setup u ∧
          ∃ q' ∈ u.store.requests, q'.id = x.id ∧ q'.status = .draft) →
        b = .submit y'.id y'.author ∧ b.Passes setup u ∧
          ∃ q' ∈ u.store.requests, q'.id = y'.id ∧ q'.status = .draft := by
      rw [hsame.id, hsame.author]
      exact fun _ _ hcause => hcause
    cases hturn with
    | stay same =>
      rw [same] at hnotDraft hnotRejected
      exact Or.inr ⟨x, hx, ⟨hxid, hnotDraft, hnotRejected⟩, hsame'⟩
    | submit action passed hbefore _ =>
      refine Or.inl ⟨?_, passed, x, hx, hsame.id.symm, hbefore⟩
      rw [hsame.id, hsame.author]
      exact action
    | advance hbefore _ =>
      refine Or.inr ⟨x, hx, ⟨hxid, ?_⟩, hsame'⟩
      rcases hbefore with hbefore | hbefore
      · rw [hbefore]; decide
      · rw [hbefore]; decide
    | approve _ _ _ _ hbefore _ =>
      refine Or.inr ⟨x, hx, ⟨hxid, ?_⟩, hsame'⟩
      rcases hbefore with hbefore | hbefore
      · rw [hbefore]; decide
      · rw [hbefore]; decide
    | reject _ _ _ _ _ hafter => exact absurd hafter hnotRejected

/-! ## Whole runs -/

/-- Everything that a run leaves behind was done by those who may do it. -/
structure Accountable (setup : Setup) (w : World) (actions : List Action) : Prop where
  /-- Who acknowledged an impact, unless that was for its age. -/
  acknowledged : ∀ j ∈ (run setup w actions).store.impacts, j.acknowledged = true →
    j.autoConfirmed = false → Occurs setup w actions fun v a =>
      a = .acknowledge j.id j.contributor ∧ a.Passes setup v ∧
        j.ResolvedIn v.store (step setup v a).store
  /-- Who dismissed an impact, and that the parser had not found it. -/
  dismissed : ∀ j ∈ (run setup w actions).store.impacts, j.dismissed = true →
    j.method ≠ .parser ∧ Occurs setup w actions fun v a =>
      a = .dismiss j.id j.contributor ∧ a.Passes setup v ∧
        j.ResolvedIn v.store (step setup v a).store
  /-- Only sweeps acknowledge for age. -/
  autoConfirmed : ∀ j ∈ (run setup w actions).store.impacts, j.autoConfirmed = true →
    Occurs setup w actions fun v a =>
      a.isSweep = true ∧ a.Passes setup v ∧ j.ResolvedIn v.store (step setup v a).store
  /-- Who approved or rejected a request. -/
  decided : ∀ r ∈ (run setup w actions).store.requests, r.status.isTerminal = true →
    ∃ p ∈ (run setup w actions).store.projects, p.id = r.project ∧
      Occurs setup w actions fun v a =>
        a ∈ r.decisions p.owner ∧ a.Passes setup v ∧ r.DecidedIn v.store (step setup v a).store
  /-- Who submitted a request that was a draft at one point and has entered its analysis at a
  later one. -/
  submitted : ∀ before middle after, actions = before ++ middle ++ after →
    ∀ q ∈ (run setup w before).store.requests, q.status = .draft →
    ∀ r ∈ (run setup w (before ++ middle)).store.requests, r.id = q.id →
      r.status ≠ .draft → r.status ≠ .rejected →
      Occurs setup (run setup w before) middle fun v a =>
        a = .submit r.id r.author ∧ a.Passes setup v ∧
          ∃ q' ∈ v.store.requests, q'.id = r.id ∧ q'.status = .draft
  /-- No step does anything else to an impact. -/
  impactSteps : ∀ before a after, actions = before ++ a :: after →
    ∀ i ∈ (run setup w before).store.impacts,
    ∀ j ∈ (step setup (run setup w before) a).store.impacts, j.id = i.id →
      i.Turns (a.Passes setup (run setup w before)) a j
  /-- No step does anything else to a request. -/
  requestSteps : ∀ before a after, actions = before ++ a :: after →
    ∀ r ∈ (run setup w before).store.requests,
    ∀ r' ∈ (step setup (run setup w before) a).store.requests, r'.id = r.id →
      r.Same r' ∧
        r.Turns (a.Passes setup (run setup w before)) (run setup w before).store.projects a r'

/-- From an intact store in which nothing is resolved or decided, every run is accountable. -/
theorem run_accountable (h : w.store.Intact) (hi : ∀ i ∈ w.store.impacts, i.IsUntouched)
    (hr : ∀ r ∈ w.store.requests, r.status.isTerminal = false) (actions : List Action) :
    Accountable setup w actions := by
  have hintact (before : List Action) : (run setup w before).store.Intact :=
    (grows_run before).intact h
  refine
    { acknowledged := fun j hj hack hauto => ?_
      dismissed := fun j hj hdismissed => ?_
      autoConfirmed := fun j hj hauto => ?_
      decided := fun r hm hd => occurs_of_decided h hr actions hm hd
      submitted := fun before middle after _ q hq hdraft r hm hid hnd hnr =>
        occurs_of_submitted (hintact before) middle hq hdraft (run_append before middle ▸ hm) hid
          ⟨hnd, hnr⟩
      impactSteps := fun before a after _ i hm j hj hid => ?_
      requestSteps := fun before a after _ r hm r' hr' hid => ?_ }
  · have hsaid : ¬j.IsUntouched := fun hj => by rw [hj.acknowledged] at hack; cases hack
    refine (occurs_of_resolved h hi actions hj hsaid).imp fun v a ⟨hexplained, hcause⟩ => ⟨?_, hcause⟩
    cases hexplained with
    | acknowledged => rfl
    | dismissed _ kept => rw [kept] at hack; cases hack
    | confirmed _ flag => rw [flag] at hauto; cases hauto
  · have hsaid : ¬j.IsUntouched := fun hj => by rw [hj.dismissed] at hdismissed; cases hdismissed
    have hexplains {a : Action} (he : j.Explained a) :
        j.method ≠ .parser ∧ a = .dismiss j.id j.contributor := by
      cases he with
      | acknowledged _ kept => rw [kept] at hdismissed; cases hdismissed
      | dismissed _ _ _ method => exact ⟨method, rfl⟩
      | confirmed _ _ kept => rw [kept] at hdismissed; cases hdismissed
    obtain ⟨before, a, after, heq, hexplained, hcause⟩ := occurs_of_resolved h hi actions hj hsaid
    obtain ⟨hmethod, ha⟩ := hexplains hexplained
    exact ⟨hmethod, before, a, after, heq, ha, hcause⟩
  · have hsaid : ¬j.IsUntouched := fun hj => by rw [hj.autoConfirmed] at hauto; cases hauto
    refine (occurs_of_resolved h hi actions hj hsaid).imp fun v a ⟨hexplained, hcause⟩ => ⟨?_, hcause⟩
    cases hexplained with
    | acknowledged _ _ personal => rw [personal] at hauto; cases hauto
    | dismissed _ _ personal => rw [personal] at hauto; cases hauto
    | confirmed sweep => exact sweep
  · obtain ⟨k, hk, hturn⟩ := (impacts_evolve setup (hintact before) a).kept i hm
    have hkid : k.id = i.id := by cases hturn <;> rfl
    have hafter := (grows_step setup (run setup w before) a).intact (hintact before)
    rwa [hafter.impactIds.eq_of_key_eq hj hk (hid.trans hkid.symm)]
  · obtain ⟨q, hq, hsame, hturn⟩ := (requests_evolve setup (hintact before) a).kept r hm
    have hafter := (grows_step setup (run setup w before) a).intact (hintact before)
    rw [hafter.requestIds.eq_of_key_eq hr' hq (hid.trans hsame.id.symm)]
    exact ⟨hsame, hturn⟩

/-- An impact that a language model found, on the contributor of the other component. -/
def sampleNotice : Impact where
  id := "m1"
  change := sampleRequest.id
  component := "ui"
  contributor := "udo"
  method := .llm
  createdAt := ⟨0⟩

/-- The small project with that impact. -/
def sampleNoticed : World :=
  { sampleWorld with
    store := { sampleWorld.store with impacts := sampleWorld.store.impacts ++ [sampleNotice] } }

theorem intact_sampleNoticed : sampleNoticed.store.Intact :=
  reachable_sampleWorld.intact.insertImpacts
    (Store.insertImpacts_eq_ok (by decide) (by decide +kernel) (by decide +kernel))

/-- The contributor dismisses the impact, the owner approves, and a draft is submitted by its
author. The attempts of others in between are refused. -/
def sampleHistory : List Action :=
  [.analyze sampleRequest.id, .dismiss "m1" "ana", .dismiss "m1" "udo",
    .approve sampleRequest.id "ana", .approve sampleRequest.id "olga",
    .create "shop" "ui" "udo" "Buttons" "" false, .submit (idOf 2) "ana", .submit (idOf 2) "udo"]

theorem sample_accountable :
    sampleNoticed.store.Intact ∧ (∀ i ∈ sampleNoticed.store.impacts, i.IsUntouched) ∧
    (∀ r ∈ sampleNoticed.store.requests, r.status.isTerminal = false) ∧
    (run sampleSetup sampleNoticed sampleHistory).store.impacts.map
      (fun i => (i.id, i.dismissed)) = [("m1", true)] ∧
    (run sampleSetup sampleNoticed sampleHistory).store.requests.map (fun r => (r.id, r.status)) =
      [(idOf 0, .approved), (idOf 2, .pendingAnalysis)] ∧
    Accountable sampleSetup sampleNoticed sampleHistory := by
  have huntouched : ∀ i ∈ sampleNoticed.store.impacts, i.IsUntouched := by
    have hflags : ∀ i ∈ sampleNoticed.store.impacts,
        i.acknowledged = false ∧ i.dismissed = false ∧ i.autoConfirmed = false := by
      decide +kernel
    intro i hi
    obtain ⟨hack, hdismissed, hauto⟩ := hflags i hi
    exact ⟨hack, hdismissed, hauto⟩
  have hundecided : ∀ r ∈ sampleNoticed.store.requests, r.status.isTerminal = false := by
    decide +kernel
  exact ⟨intact_sampleNoticed, huntouched, hundecided, by decide +kernel, by decide +kernel,
    run_accountable intact_sampleNoticed huntouched hundecided sampleHistory⟩

end ChangeImpact
