import ChangeImpact.Proofs.Workflow.Advance

/-!
# Status and impacts agree

Five actions move the status of a request on, and a sweep does so for many requests at
once. In every reachable world the status nevertheless says how far the impacts are:
there are none before the analysis, one is open while the analysis is complete, and
none is open in review. Every step keeps this, dossier by dossier.
-/

namespace ChangeImpact

/-- The status of a request says how far its impacts are. -/
structure Store.Agrees (s : Store) (r : ChangeRequest) : Prop where
  waiting : r.status = .draft ∨ r.status = .pendingAnalysis → ∀ i ∈ s.impacts, i.change ≠ r.id
  analysed : r.status = .analysisComplete →
    ∃ i ∈ s.impacts, i.change = r.id ∧ i.isResolved = false
  reviewed : r.status = .pendingReview →
    ∀ i ∈ s.impacts, i.change = r.id → i.isResolved = true
  approved : r.status = .approved → ∀ p ∈ s.projects, p.id = r.project → p.strictness = .full →
    ∀ i ∈ s.impacts, i.change = r.id → i.isResolved = true
  decided : r.resolvedAt.isSome = true ↔ r.status = .approved ∨ r.status = .rejected

namespace Dossier

/-- The same for a dossier of a project that is of full strictness or not. -/
structure Agrees (strict : Prop) (d : Dossier) : Prop where
  waiting : d.request.status = .draft ∨ d.request.status = .pendingAnalysis → d.impacts = []
  analysed : d.request.status = .analysisComplete → d.isResolved = false
  reviewed : d.request.status = .pendingReview → d.isResolved = true
  approved : d.request.status = .approved → strict → d.isResolved = true
  decided : d.request.resolvedAt.isSome = true ↔
    d.request.status = .approved ∨ d.request.status = .rejected

variable {strict : Prop} {d d' : Dossier}

/-- A new request waits without impacts. -/
theorem IsNew.agrees (h : d.IsNew) : d.Agrees strict where
  waiting _ := h.impacts
  analysed hs := by rcases h.status with h | h <;> rw [h] at hs <;> cases hs
  reviewed hs := by rcases h.status with h | h <;> rw [h] at hs <;> cases hs
  approved hs := by rcases h.status with h | h <;> rw [h] at hs <;> cases hs
  decided := by
    rw [h.resolvedAt]
    rcases h.status with h | h <;> simp [h]

/-- A request that is not decided has no time of a decision. -/
theorem Agrees.resolvedAt_eq_none (h : d.Agrees strict) (ht : d.request.status.isTerminal = false) :
    d.request.resolvedAt = none := by
  rw [← Option.not_isSome_iff_eq_none, h.decided]
  rintro (hs | hs)
  · rw [hs] at ht
    cases ht
  · rw [hs] at ht
    cases ht

/-- Once an analysed request was looked at again, its status agrees with its impacts. -/
theorem agrees_review (hs : d.request.status = .analysisComplete)
    (hr : d.request.resolvedAt = none) (time : Instant) : (d.review time).Agrees strict := by
  cases hres : d.isResolved with
  | true =>
    rw [review, if_pos ⟨hs, hres⟩]
    exact
      { waiting := fun h => by rcases h with h | h <;> cases h
        analysed := fun h => by cases h
        reviewed := fun _ => hres
        approved := fun h => by cases h
        decided := by simp [hr] }
  | false =>
    have hn : d.review time = d := if_neg fun h => by
      rw [hres] at h
      cases h.2
    rw [hn]
    exact
      { waiting := fun h => by rcases h with h | h <;> rw [hs] at h <;> cases h
        analysed := fun _ => hres
        reviewed := fun h => by rw [hs] at h; cases h
        approved := fun h => by rw [hs] at h; cases h
        decided := by simp [hr, hs] }

/-- Agreement does not depend on comments. -/
theorem agrees_bare : d.bare.Agrees strict ↔ d.Agrees strict := by
  have hres : d.bare.isResolved = d.isResolved := List.all_map
  have hnil : d.bare.impacts = [] ↔ d.impacts = [] := List.map_eq_nil_iff
  constructor
  · intro h
    exact
      { waiting := fun hs => hnil.mp (h.waiting hs)
        analysed := fun hs => hres ▸ h.analysed hs
        reviewed := fun hs => hres ▸ h.reviewed hs
        approved := fun hs hstrict => hres ▸ h.approved hs hstrict
        decided := h.decided }
  · intro h
    exact
      { waiting := fun hs => hnil.mpr (h.waiting hs)
        analysed := fun hs => hres.trans (h.analysed hs)
        reviewed := fun hs => hres.trans (h.reviewed hs)
        approved := fun hs hstrict => hres.trans (h.approved hs hstrict)
        decided := h.decided }

/-- Impacts that are all resolved stay as they are. -/
theorem eq_of_settles {is : List Impact} (h : List.Forall₂ Impact.Settles d.impacts is)
    (hres : d.isResolved = true) : is = d.impacts := by
  rw [isResolved_iff] at hres
  have heq := ((List.forall₂_and_left _ _).mpr ⟨hres, h⟩).imp fun i j hij =>
    hij.2.eq_of_isResolved hij.1
  rw [← List.forall₂_eq_eq_eq]
  exact heq.flip

/-- Resolving impacts and looking again keeps the agreement. -/
theorem Agrees.settle (h : d.Agrees strict) (ht : d.request.status.isTerminal = false)
    {is : List Impact} (hset : List.Forall₂ Impact.Settles d.impacts is) (time : Instant) :
    ((d.withImpacts is).review time).Agrees strict := by
  have hsame (hs : d.request.status ≠ .analysisComplete) (his : is = d.impacts) :
      ((d.withImpacts is).review time).Agrees strict := by
    have hreview : (d.withImpacts is).review time = d.withImpacts is := if_neg fun hc => hs hc.1
    rw [hreview, his]
    exact h
  have hempty (hd : d.impacts = []) : is = d.impacts := by
    rw [hd, List.forall₂_nil_left_iff] at hset
    rw [hd, hset]
  cases hs : d.request.status with
  | draft => exact hsame (by rw [hs]; decide) (hempty (h.waiting (Or.inl hs)))
  | pendingAnalysis => exact hsame (by rw [hs]; decide) (hempty (h.waiting (Or.inr hs)))
  | analysisComplete =>
    exact agrees_review (d := d.withImpacts is) hs (h.resolvedAt_eq_none ht) time
  | pendingReview => exact hsame (by rw [hs]; decide) (eq_of_settles hset (h.reviewed hs))
  | approved => rw [hs] at ht; cases ht
  | rejected => rw [hs] at ht; cases ht

end Dossier

/-- Every step keeps the agreement of a dossier. -/
theorem Advance.agrees {strict : Prop} {a : Action} {d d' : Dossier} (h : Advance strict a d d')
    (hd : d.Agrees strict) : d'.Agrees strict := by
  have hopen {status : ChangeStatus} (hs : d.request.status = status)
      (ht : status.isTerminal = false) : d.request.resolvedAt = none :=
    hd.resolvedAt_eq_none (hs ▸ ht)
  cases h with
  | comment same => rwa [← Dossier.agrees_bare, same, Dossier.agrees_bare]
  | submit _ hs time =>
    exact Dossier.IsNew.agrees ⟨hd.waiting (Or.inl hs), Or.inr rfl, hopen hs rfl⟩
  | @analyze _ hs found _ time time' =>
    exact Dossier.agrees_review (d := (d.setStatus .analysisComplete time).extend found) rfl
      (hopen hs rfl) time'
  | settle _ ht hset time => exact hd.settle ht hset time
  | approve _ _ hres time =>
    exact
      { waiting := fun h => by rcases h with h | h <;> cases h
        analysed := fun h => nomatch h
        reviewed := fun h => nomatch h
        approved := fun _ hstrict => hres hstrict
        decided := by simp [Dossier.close] }
  | reject _ _ time =>
    exact
      { waiting := fun h => by rcases h with h | h <;> cases h
        analysed := fun h => nomatch h
        reviewed := fun h => nomatch h
        approved := fun h => nomatch h
        decided := by simp [Dossier.close] }

/-- A project that is there does not become strict. -/
theorem Store.Grows.isStrict {s t : Store} (h : Store.Grows s t) (hs : s.Intact) {project : String}
    (hp : s.hasProject project = true) (ht : t.isStrict project) : s.isStrict project := by
  obtain ⟨q, hq, hqid, hfull⟩ := ht
  obtain ⟨p, hp, hpid⟩ := Store.hasProject_iff.mp hp
  have hpq : p = q :=
    (h.intact hs).projectIds.eq_of_key_eq (h.projects hp) hq (hpid.trans hqid.symm)
  exact ⟨p, hp, hpid, hpq ▸ hfull⟩

theorem Dossier.Agrees.mono {strict strict' : Prop} {d : Dossier} (h : d.Agrees strict)
    (hi : strict' → strict) : d.Agrees strict' :=
  { h with approved := fun hs hstrict => h.approved hs (hi hstrict) }

/-- The status of every request agrees with its impacts. -/
def Store.AllAgree (s : Store) : Prop :=
  ∀ d ∈ s.dossiers, d.Agrees (s.isStrict d.request.project)

theorem allAgree_step {setup : Setup} {w : World} (h : w.store.Intact) (hw : w.store.AllAgree)
    (a : Action) : (step setup w a).store.AllAgree := by
  obtain ⟨kept, opened, heq, hkept, hopened⟩ := steps_step setup h a
  intro d' hd'
  rw [heq] at hd'
  rcases List.mem_append.mp hd' with hd' | hd'
  · obtain ⟨d, hd, hadv⟩ := Store.exists_left_of_forall₂
      ((List.forall₂_and_left _ _).mpr ⟨fun d hd => hd, hkept⟩) hd'
    have hp : w.store.hasProject d.request.project = true :=
      Store.hasProject_iff.mpr (h.requestProjects _ (Store.mem_dossiers.mp hd).1 _ rfl)
    rw [hadv.2.request.project]
    exact (hadv.2.agrees (hw d hd)).mono ((grows_step setup w a).isStrict h hp)
  · exact (hopened d' hd').agrees

theorem Reachable.allAgree {setup : Setup} {w : World} (h : Reachable setup w) :
    w.store.AllAgree := by
  induction h with
  | start tables _ =>
    rw [tables]
    exact fun _ hd => nomatch hd
  | step hw a ih => exact allAgree_step hw.intact ih a

/-- In every reachable world the status of each request agrees with its impacts. -/
theorem reachable_agrees {setup : Setup} {w : World} (h : Reachable setup w) :
    ∀ r ∈ w.store.requests, w.store.Agrees r := by
  intro r hr
  have hd : w.store.dossier r ∈ w.store.dossiers := List.mem_map_of_mem hr
  have hmem {i : Impact} :
      i ∈ (w.store.dossier r).impacts ↔ i ∈ w.store.impacts ∧ i.change = r.id :=
    Store.mem_impacts_of_mem_dossiers hd
  have hall (hres : (w.store.dossier r).isResolved = true) (i : Impact) (hi : i ∈ w.store.impacts)
      (hc : i.change = r.id) : i.isResolved = true :=
    Dossier.isResolved_iff.mp hres i (hmem.mpr ⟨hi, hc⟩)
  have ha := h.allAgree _ hd
  refine
    { waiting := fun hs i hi hc => ?_
      analysed := fun hs => ?_
      reviewed := fun hs => hall (ha.reviewed hs)
      approved := fun hs p hp hpid hfull => hall (ha.approved hs ⟨p, hp, hpid, hfull⟩)
      decided := ha.decided }
  · have hnil := ha.waiting hs
    have hin := hmem.mpr ⟨hi, hc⟩
    rw [hnil] at hin
    cases hin
  · have hres := ha.analysed hs
    rw [Dossier.isResolved, List.all_eq_false] at hres
    obtain ⟨i, hi, hopen⟩ := hres
    exact ⟨i, (hmem.mp hi).1, (hmem.mp hi).2, Bool.eq_false_iff.mpr hopen⟩

/-- The request of the small project goes straight to review. -/
theorem sample_agrees :
    Reachable sampleSetup (step sampleSetup sampleWorld (.analyze sampleRequest.id)) ∧
    ∃ r ∈ (step sampleSetup sampleWorld (.analyze sampleRequest.id)).store.requests,
      r.status = .pendingReview ∧
        (step sampleSetup sampleWorld (.analyze sampleRequest.id)).store.Agrees r := by
  have hreach : Reachable sampleSetup (step sampleSetup sampleWorld (.analyze sampleRequest.id)) :=
    reachable_sampleWorld.step _
  obtain ⟨r, hr, hs⟩ : ∃ r ∈ (step sampleSetup sampleWorld
      (.analyze sampleRequest.id)).store.requests, r.status = .pendingReview := by
    decide +kernel
  exact ⟨hreach, r, hr, hs, reachable_agrees hreach r hr⟩

end ChangeImpact
