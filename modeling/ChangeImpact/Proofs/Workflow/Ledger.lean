import ChangeImpact.Proofs.Workflow.Flags

/-!
# Impacts are unique and only appended

The impacts of a request come in all at once, by the one analysis that succeeds, at most one
for each contributor of a component and none for the component of the request itself. From then
on rows stay where they are. What was found is never written again, the flags only rise, and
at all times they fit together.
-/

namespace ChangeImpact

open Operation

variable {setup : Setup} {w w' : World} {a : Action}

/-! ## What becomes of an impact -/

/-- What is said about the resolution of an impact fits together. -/
structure Impact.IsCoherent (i : Impact) : Prop where
  exclusive : ¬(i.acknowledged = true ∧ i.dismissed = true)
  timed : i.acknowledgedAt.isSome = true ↔ i.acknowledged = true ∨ i.dismissed = true
  auto : i.autoConfirmed = true → i.acknowledged = true

/-- The same impact at a later time. -/
structure Impact.Later (i j : Impact) : Prop where
  found : j.found = i.found
  acknowledged : i.acknowledged = true → j.acknowledged = true
  dismissed : i.dismissed = true → j.dismissed = true

instance : IsPreorder Impact Impact.Later where
  refl _ := ⟨rfl, id, id⟩
  trans _ _ _ h h' :=
    ⟨h'.found.trans h.found, h'.acknowledged ∘ h.acknowledged, h'.dismissed ∘ h.dismissed⟩

/-- A column of what was found has the same value in both rows. -/
theorem Impact.column_eq {α : Type} {i j : Impact} (h : j.found = i.found) (column : Impact → α)
    (hcolumn : ∀ k : Impact, column k.found = column k) : column j = column i := by
  rw [← hcolumn j, h, hcolumn i]

section Turns

variable {passes : Prop} {i j : Impact}

theorem Impact.Turns.later (h : i.Turns passes a j) : i.Later j := by
  cases h with
  | comment comment => exact ⟨rfl, fun hflag => hflag, fun hflag => hflag⟩
  | acknowledge _ _ _ time => exact ⟨rfl, fun _ => rfl, fun hflag => hflag⟩
  | dismiss _ _ _ _ time => exact ⟨rfl, fun hflag => hflag, fun _ => rfl⟩
  | confirm _ _ _ time => exact ⟨rfl, fun _ => rfl, fun hflag => hflag⟩

/-- An action acknowledges or dismisses only what is open, and then says so with a time. -/
theorem Impact.Turns.isCoherent (h : i.Turns passes a j) (hi : i.IsCoherent) : j.IsCoherent := by
  cases h with
  | comment comment => exact ⟨hi.exclusive, hi.timed, hi.auto⟩
  | acknowledge _ _ isOpen time =>
    have hdismissed := (Impact.open_iff.mp isOpen).2
    refine ⟨?_, ⟨fun _ => Or.inl rfl, fun _ => rfl⟩, fun _ => rfl⟩
    rintro ⟨-, hboth⟩
    exact Bool.false_ne_true (hdismissed.symm.trans hboth)
  | dismiss _ _ isOpen _ time =>
    have hacknowledged := (Impact.open_iff.mp isOpen).1
    refine ⟨?_, ⟨fun _ => Or.inr rfl, fun _ => rfl⟩, hi.auto⟩
    rintro ⟨hboth, -⟩
    exact Bool.false_ne_true (hacknowledged.symm.trans hboth)
  | confirm _ _ isOpen time =>
    have hdismissed := (Impact.open_iff.mp isOpen).2
    refine ⟨?_, ⟨fun _ => Or.inl rfl, fun _ => rfl⟩, fun _ => rfl⟩
    rintro ⟨-, hboth⟩
    exact Bool.false_ne_true (hdismissed.symm.trans hboth)

end Turns

/-- An analysis finds impacts about which nothing is said. -/
theorem Analysis.Fits.isCoherent {r : ChangeRequest} {found : Analysis}
    (h : found.Fits setup w r) {i : Impact} (hi : i ∈ found.impacts) : i.IsCoherent := by
  obtain ⟨x, -, time, id, rfl⟩ := Store.exists_left_of_forall₂ h.impacts hi
  constructor
  · rintro ⟨hacknowledged, -⟩
    cases hacknowledged
  · constructor
    · intro htime
      cases htime
    · rintro (hflag | hflag) <;> cases hflag
  · intro hauto
    cases hauto

/-! ## Rows stay where they are -/

/-- An action turns every impact where it stands, or it is an analysis that appends some. -/
theorem impacts_turn (setup : Setup) (h : w.store.Intact) (a : Action) :
    List.Forall₂ (Impact.Turns (a.Passes setup w) a) w.store.impacts
        (step setup w a).store.impacts ∨
      ∃ r found report, a = .analyze r.id ∧ Analyzes setup r found report w (step setup w a) := by
  rcases (effect_step setup h a).impacts with hfound | hanalyzes
  · refine Or.inl ?_
    have h' := (grows_step setup w a).intact h
    rw [← List.forall₂_eq_eq_eq, List.forall₂_map_left_iff, List.forall₂_map_right_iff] at hfound
    have hright := (List.forall₂_and_left _ _).mpr ⟨fun j hj => hj, hfound⟩
    have hboth := (List.forall₂_and_left _ _).mpr ⟨fun i hi => hi, hright.flip⟩
    refine hboth.imp ?_
    rintro i j ⟨hi, hj, hsame⟩
    obtain ⟨k, hk, hturn⟩ := (impacts_evolve setup h a).kept i hi
    have hid : k.id = j.id := by
      rw [Impact.column_eq hturn.later.found (·.id) fun _ => rfl]
      exact (Impact.column_eq hsame (·.id) fun _ => rfl).symm
    rw [← h'.impactIds.eq_of_key_eq hk hj hid]
    exact hturn
  · exact Or.inr hanalyzes

/-- The impacts are still there, in the same order and each at a later time, and others may
follow. -/
def Store.Extends (s t : Store) : Prop :=
  ∃ kept added, t.impacts = kept ++ added ∧ List.Forall₂ Impact.Later s.impacts kept

theorem Store.Extends.exists_later {s t : Store} (h : s.Extends t) {i : Impact}
    (hi : i ∈ s.impacts) : ∃ j ∈ t.impacts, i.Later j := by
  obtain ⟨kept, added, heq, hkept⟩ := h
  obtain ⟨j, hj, hlater⟩ := Store.exists_right_of_forall₂ hkept hi
  exact ⟨j, heq ▸ List.mem_append_left _ hj, hlater⟩

instance : IsPreorder Store Store.Extends where
  refl s := ⟨s.impacts, [], (List.append_nil _).symm,
    List.forall₂_same.mpr fun i _ => refl_of Impact.Later i⟩
  trans s t u := by
    rintro ⟨kept, added, heq, hkept⟩ ⟨kept', added', heq', hkept'⟩
    -- what is kept of the longer list starts with what is kept of the shorter one
    rw [heq] at hkept'
    have hstart := (List.forall₂_take_append _ _ _ hkept'.flip).flip
    refine ⟨kept'.take kept.length, kept'.drop kept.length ++ added', ?_, ?_⟩
    · rw [heq', ← List.append_assoc, List.take_append_drop]
    · exact Store.forall₂_comp (R := Impact.Later) (S := Impact.Later)
        (fun _ _ _ hi hj => trans_of Impact.Later hi hj) hkept hstart

theorem extends_step (setup : Setup) (h : w.store.Intact) (a : Action) :
    w.store.Extends (step setup w a).store := by
  rcases impacts_turn setup h a with hturns | ⟨r, found, report, -, hanalyzes⟩
  · exact ⟨_, [], (List.append_nil _).symm, hturns.imp fun _ _ hturn => hturn.later⟩
  · exact ⟨_, found.impacts, hanalyzes.impacts,
      List.forall₂_same.mpr fun i _ => refl_of Impact.Later i⟩

theorem extends_run (h : w.store.Intact) (actions : List Action) :
    w.store.Extends (run setup w actions).store := by
  induction actions generalizing w with
  | nil => exact refl_of Store.Extends w.store
  | cons a actions ih =>
    exact trans_of Store.Extends (extends_step setup h a) (ih ((grows_step setup w a).intact h))

/-! ## What always holds of the impacts -/

/-- No contributor of a component has two impacts of a request, the component of the request has
none, and what is said about each impact fits together. -/
structure Store.Ledger (s : Store) : Prop where
  unique : Store.Keyed (fun i => (i.change, i.component, i.contributor)) s.impacts
  foreign : ∀ i ∈ s.impacts, ∀ r ∈ s.requests, r.id = i.change → i.component ≠ r.component
  coherent : ∀ i ∈ s.impacts, i.IsCoherent

/-- A request with impacts was there before the action, for the same component. -/
theorem exists_request_of_impact (setup : Setup) (h : w.store.Intact) (a : Action) {i : Impact}
    (hi : i ∈ (step setup w a).store.impacts) {r' : ChangeRequest}
    (hr' : r' ∈ (step setup w a).store.requests) (hid : r'.id = i.change) :
    ∃ r ∈ w.store.requests, r.id = i.change ∧ r.component = r'.component := by
  rcases advance_origin setup h a hr' with ⟨r, hr, hadv⟩ | hnew
  · have hsame : r'.id = r.id := hadv.request.id
    have hcomponent : r'.component = r.component := hadv.column fun _ _ _ _ => rfl
    exact ⟨r, hr, hsame.symm.trans hid, hcomponent.symm⟩
  · -- a request that was just made has no impacts
    have hmem : i ∈ ((step setup w a).store.dossier r').impacts :=
      List.mem_filter.mpr ⟨hi, decide_eq_true hid.symm⟩
    rw [hnew.impacts] at hmem
    cases hmem

/-- An analysis adds no impact on a contributor who has one already. -/
theorem Analyzes.unique {r : ChangeRequest} {found : Analysis} {report : ImpactReport}
    (h : Analyzes setup r found report w w') (hagree : w.store.AllAgree)
    (hunique : Store.Keyed (fun i => (i.change, i.component, i.contributor)) w.store.impacts) :
    Store.Keyed (fun i => (i.change, i.component, i.contributor)) w'.store.impacts := by
  have hnone := change_ne_of_pending hagree h.request h.pending
  have hfound : (found.impacts.map fun i => (i.change, i.component, i.contributor)).Nodup := by
    refine List.Nodup.of_map Prod.snd ?_
    rw [List.map_map]
    exact h.fits.keyed_impacts
  rw [Store.Keyed, h.impacts, List.map_append]
  refine List.Nodup.append hunique hfound fun key hold hnew => ?_
  obtain ⟨i, hi, rfl⟩ := List.mem_map.mp hold
  obtain ⟨j, hj, heq⟩ := List.mem_map.mp hnew
  exact hnone i hi ((Prod.mk.inj heq).1.symm.trans (h.change_eq hj))

theorem ledger_step (setup : Setup) (h : w.store.Intact) (hagree : w.store.AllAgree)
    (hledger : w.store.Ledger) (a : Action) : (step setup w a).store.Ledger where
  unique := by
    rcases impacts_turn setup h a with hturns | ⟨r, found, report, -, hanalyzes⟩
    · rw [Store.Keyed, Store.map_eq_of_forall₂ hturns fun i j hturn =>
        Impact.column_eq hturn.later.found (fun k => (k.change, k.component, k.contributor))
          fun _ => rfl]
      exact hledger.unique
    · exact hanalyzes.unique hagree hledger.unique
  foreign := by
    intro i hi r' hr' hid
    obtain ⟨r, hr, hrid, hcomponent⟩ := exists_request_of_impact setup h a hi hr' hid
    rw [← hcomponent]
    rcases (effect_step setup h a).impact hi with
      ⟨j, hj, hchange, hsame⟩ | ⟨q, found, report, -, hanalyzes, hfound⟩
    · rw [← hsame]
      exact hledger.foreign j hj r hr (hrid.trans hchange.symm)
    · have hqr : q = r := h.requestIds.eq_of_key_eq hanalyzes.request hr
        ((hanalyzes.change_eq hfound).symm.trans hrid.symm)
      obtain ⟨⟨⟨hne, -⟩, -⟩, -⟩ := (hanalyzes.fits.mem_map_impacts h.toConsistent).mp
        (List.mem_map_of_mem hfound)
      rw [← hqr]
      exact hne
  coherent := by
    intro j hj
    rcases impacts_turn setup h a with hturns | ⟨r, found, report, -, hanalyzes⟩
    · obtain ⟨i, hi, hturn⟩ := Store.exists_left_of_forall₂ hturns hj
      exact hturn.isCoherent (hledger.coherent i hi)
    · rw [hanalyzes.impacts] at hj
      rcases List.mem_append.mp hj with hold | hnew
      · exact hledger.coherent j hold
      · exact hanalyzes.fits.isCoherent hnew

theorem ledger_empty : ({} : Store).Ledger where
  unique := .nil
  foreign _ hi := nomatch hi
  coherent _ hi := nomatch hi

/-- In every reachable world. -/
theorem Reachable.ledger (h : Reachable setup w) : w.store.Ledger := by
  induction h with
  | start tables _ =>
    rw [tables]
    exact ledger_empty
  | step hw a ih => exact ledger_step setup hw.intact hw.allAgree ih a

/-! ## One analysis for each request -/

/-- In a run the request is analysed once: before that it has no impacts, that analysis succeeds,
and from then on the request has the impacts that it has in the end. -/
structure AnalysedOnce (setup : Setup) (w : World) (actions : List Action) (request : String)
    (before after : List Action) : Prop where
  split : actions = before ++ .analyze request :: after
  passed : (Action.analyze request).Passes setup (run setup w before)
  none : ∀ start, start <+: before →
    ∀ i ∈ (run setup w start).store.impacts, i.change ≠ request
  all : ∀ rest, rest <+: after →
    (run setup w (before ++ .analyze request :: rest)).store.foundOn request =
      (run setup w actions).store.foundOn request

/-- An impact comes in by the analysis of a request that had none. -/
theorem occurs_of_impact (h : Reachable setup w) (hnone : w.store.impacts = [])
    (actions : List Action) {i : Impact} (hi : i ∈ (run setup w actions).store.impacts) :
    Occurs setup w actions fun v a =>
      a = .analyze i.change ∧ a.Passes setup v ∧ ∀ j ∈ v.store.impacts, j.change ≠ i.change := by
  refine occurs_of_mem (I := Reachable setup) (T := (·.impacts)) (P := fun j => j.change = i.change)
    (C := fun _ v a =>
      a = .analyze i.change ∧ a.Passes setup v ∧ ∀ j ∈ v.store.impacts, j.change ≠ i.change)
    h (fun v a hv => hv.step a) (fun j hj => ?_) (fun v a hv j hj hchange => ?_) actions hi rfl
  · rw [hnone] at hj
    cases hj
  · rcases (effect_step setup hv.intact a).impact hj with
      ⟨k, hk, hsame, -⟩ | ⟨r, found, report, rfl, hanalyzes, hfound⟩
    · exact Or.inr ⟨k, hk, hsame.trans hchange, fun _ _ hC => hC⟩
    · have hrequest : r.id = i.change := (hanalyzes.change_eq hfound).symm.trans hchange
      have hpassed : (Action.analyze r.id).Passes setup v :=
        ⟨report, congrArg Prod.fst hanalyzes.answered⟩
      refine Or.inl ⟨congrArg Action.analyze hrequest, hpassed, ?_⟩
      rw [← hrequest]
      exact change_ne_of_pending hv.allAgree hanalyzes.request hanalyzes.pending

/-- After an analysis that succeeded a request keeps its impacts as they were found. -/
theorem foundOn_of_passes (h : w.store.Intact) {request : String}
    (hpassed : (Action.analyze request).Passes setup w) (rest : List Action) :
    (run setup w (.analyze request :: rest)).store.foundOn request =
      (step setup w (.analyze request)).store.foundOn request := by
  obtain ⟨report, hok⟩ := hpassed
  have he : exec (analyzeRequest setup request) w =
      (.ok report, step setup w (.analyze request)) := Prod.ext hok rfl
  obtain ⟨r, found, rfl, hanalyzes⟩ := analyzeRequest_analyzes setup h request he
  obtain ⟨q, hq, hsame, hready⟩ := hanalyzes.exists_request
  rw [← hsame.id]
  exact foundOn_run setup ((grows_step setup w (.analyze q.id)).intact h) rest (hsame.id ▸ hq)
    (ChangeStatus.isWaiting_of_isReady hready)

theorem exists_analysedOnce (h : Reachable setup w) (hnone : w.store.impacts = [])
    (actions : List Action) {i : Impact} (hi : i ∈ (run setup w actions).store.impacts) :
    ∃ before after, AnalysedOnce setup w actions i.change before after := by
  obtain ⟨before, _, after, hsplit, rfl, hpassed, hempty⟩ := occurs_of_impact h hnone actions hi
  have hbefore := (h.run before).intact
  refine ⟨before, after, hsplit, hpassed, fun start hstart j hj hchange => ?_, fun rest _ => ?_⟩
  · obtain ⟨middle, rfl⟩ := hstart
    rw [run_append] at hempty
    obtain ⟨k, hk, hlater⟩ := (extends_run (h.run start).intact middle).exists_later hj
    exact hempty k hk ((Impact.column_eq hlater.found (·.change) fun _ => rfl).trans hchange)
  · rw [hsplit, run_append, run_append, foundOn_of_passes hbefore hpassed rest,
      foundOn_of_passes hbefore hpassed after]

/-- Over any run from a reachable world without impacts these are only appended to, what always
holds of them holds in the end, and those of each request come from one analysis. -/
theorem run_ledger (h : Reachable setup w) (hnone : w.store.impacts = [])
    (before after : List Action) :
    (run setup w before).store.Extends (run setup w (before ++ after)).store ∧
      (run setup w (before ++ after)).store.Ledger ∧
      ∀ i ∈ (run setup w (before ++ after)).store.impacts,
        ∃ earlier later, AnalysedOnce setup w (before ++ after) i.change earlier later := by
  have hextends : (run setup w before).store.Extends (run setup w (before ++ after)).store := by
    rw [run_append]
    exact extends_run (h.run before).intact after
  exact ⟨hextends, (h.run (before ++ after)).ledger,
    fun i hi => exists_analysedOnce h hnone (before ++ after) hi⟩

/-- An impact that the first analysis finds is there after a second one, a sweep and a decision. -/
theorem sample_ledger :
    let later := [.analyze sampleTaxes.id, .sweep ⟨0⟩ 0, .reject sampleRequest.id "olga"]
    let v := run sampleSetup sampleLinked ([.analyze sampleRequest.id] ++ later)
    Reachable sampleSetup sampleLinked ∧ sampleLinked.store.impacts = [] ∧
    (run sampleSetup sampleLinked [.analyze sampleRequest.id]).store.Extends v.store ∧
    v.store.Ledger ∧
    ∃ i ∈ v.store.impacts, i.change = sampleRequest.id ∧ i.component = "ui" ∧
      ∃ before after, AnalysedOnce sampleSetup sampleLinked
        ([.analyze sampleRequest.id] ++ later) i.change before after := by
  intro later v
  have hintact := reachable_sampleLinked.intact
  have hnone : sampleLinked.store.impacts = [] := by decide +kernel
  obtain ⟨found, report, hanalyzes, -⟩ := exists_analyzes_of_pending sampleSetup hintact
    (show sampleRequest ∈ sampleLinked.store.requests by decide +kernel) rfl isFresh_sampleLinked
  obtain ⟨i, hi, hchange, hcomponent⟩ := exists_impact_sampleLinked hanalyzes hintact.toConsistent
    (reaches_sampleLinked rfl rfl rfl rfl rfl rfl).1 rfl
  have hrun : run sampleSetup sampleLinked [.analyze sampleRequest.id] =
    step sampleSetup sampleLinked (.analyze sampleRequest.id) := rfl
  rw [← hrun] at hi
  obtain ⟨hextends, hledger, honce⟩ :=
    run_ledger reachable_sampleLinked hnone [.analyze sampleRequest.id] later
  obtain ⟨j, hj, hlater⟩ := hextends.exists_later hi
  exact ⟨reachable_sampleLinked, hnone, hextends, hledger, j, hj,
    (Impact.column_eq hlater.found (·.change) fun _ => rfl).trans hchange,
    (Impact.column_eq hlater.found (·.component) fun _ => rfl).trans hcomponent, honce j hj⟩

end ChangeImpact
