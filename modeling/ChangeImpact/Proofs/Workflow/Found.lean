import ChangeImpact.Proofs.Workflow.Accountability
import ChangeImpact.Proofs.Workflow.Agreement
import ChangeImpact.Proofs.Workflow.Effects
import ChangeImpact.Proofs.Workflow.Exactness

/-!
# Impacts are found once

All impacts of a request come from its one analysis. Before it there are none, and
afterwards, over any run, they stay as they were found; only what is said about them
changes.
-/

namespace ChangeImpact

open Operation

/-- A request of this status still waits for its analysis. -/
def ChangeStatus.isWaiting : ChangeStatus → Bool
  | .draft | .pendingAnalysis => true
  | _ => false

/-- A request of this status can be approved. -/
def ChangeStatus.isReady : ChangeStatus → Bool
  | .analysisComplete | .pendingReview => true
  | _ => false

theorem ChangeStatus.isWaiting_of_isReady {s : ChangeStatus} (h : s.isReady = true) :
    s.isWaiting = false := by
  cases s <;> cases h <;> rfl

theorem ChangeStatus.isOpen_of_isReady {s : ChangeStatus} (h : s.isReady = true) :
    s.isTerminal = false := by
  cases s <;> cases h <;> rfl

/-- The impacts of a request as they were found. -/
def Store.foundOn (s : Store) (request : String) : List Impact :=
  (s.impacts.map (·.found)).filter (·.change = request)

namespace Store

variable {s : Store} {request component : String}

theorem exists_mem_foundOn :
    (∃ i ∈ s.foundOn request, i.component = component) ↔
      ∃ i ∈ s.impacts, i.change = request ∧ i.component = component := by
  constructor
  · rintro ⟨_, hfound, rfl⟩
    obtain ⟨hmem, hchange⟩ := List.mem_filter.mp hfound
    obtain ⟨i, hi, rfl⟩ := List.mem_map.mp hmem
    exact ⟨i, hi, of_decide_eq_true hchange, rfl⟩
  · rintro ⟨i, hi, rfl, rfl⟩
    exact ⟨i.found, List.mem_filter.mpr ⟨List.mem_map_of_mem hi, decide_eq_true rfl⟩, rfl⟩

theorem mem_affectedBy :
    component ∈ s.affectedBy request ↔
      ∃ i ∈ s.impacts, i.change = request ∧ i.component = component := by
  rw [affectedBy, Ordered.mem_ofList, List.mem_map]
  refine exists_congr fun i => ?_
  rw [List.mem_filter, decide_eq_true_eq, and_assoc]

/-- A request without impacts has found none. -/
theorem foundOn_eq_nil (h : ∀ i ∈ s.impacts, i.change ≠ request) : s.foundOn request = [] := by
  rw [foundOn, List.filter_eq_nil_iff]
  intro _ hfound hchange
  obtain ⟨i, hi, rfl⟩ := List.mem_map.mp hfound
  exact h i hi (of_decide_eq_true hchange)

end Store

/-! ## One action -/

section Analyzes

variable {setup : Setup} {w w' : World} {r : ChangeRequest} {found : Analysis}
  {report : ImpactReport}

theorem Analyzes.impacts (h : Analyzes setup r found report w w') :
    w'.store.impacts = w.store.impacts ++ found.impacts := by
  obtain ⟨s, time, time', hcommit, hstore⟩ := h.committed
  rw [hstore, Store.impacts_review, Store.impacts_commitAnalysis hcommit]

/-- The reached components are flagged, the others stay as they are. -/
theorem Analyzes.components (h : Analyzes setup r found report w w') :
    w'.store.components = Store.updateWhere (fun c => report.affectedComponents.contains c.id)
      (fun c => { c with status := .flagged }) w.store.components := by
  obtain ⟨s, time, time', hcommit, hstore⟩ := h.committed
  rw [hstore, Store.components_review, Store.components_commitAnalysis hcommit, h.reported]

/-- Nothing but requests, components and impacts is written. -/
theorem Analyzes.store (h : Analyzes setup r found report w w') :
    w'.store =
      { w.store with
        requests := w'.store.requests, components := w'.store.components
        impacts := w'.store.impacts, damaged := w'.store.damaged } := by
  obtain ⟨s, time, time', hcommit, hstore⟩ := h.committed
  obtain ⟨u, hu, rfl⟩ := Store.eq_of_commitAnalysis hcommit
  rw [hstore, Store.review, Store.eq_of_insertImpacts hu]
  split
  · rfl
  · rfl

/-- What an analysis reads about a project it leaves as it is. -/
theorem Analyzes.inputs (h : Analyzes setup r found report w w') :
    w'.store.projects = w.store.projects ∧ w'.store.files = w.store.files ∧
      w'.store.drafts = w.store.drafts ∧ w'.store.edges = w.store.edges ∧
      w'.store.contributors = w.store.contributors := by
  rw [h.store]
  exact ⟨rfl, rfl, rfl, rfl, rfl⟩

theorem Analyzes.sameContent (h : Analyzes setup r found report w w') :
    w.store.SameContent w'.store := by
  rw [h.store]
  exact ⟨rfl, rfl, rfl, rfl⟩

/-- The request can be approved now, and nothing else about it has changed. -/
theorem Analyzes.mem_requests (h : Analyzes setup r found report w w') :
    ∃ status time, status.isReady = true ∧
      { r with status := status, updatedAt := time } ∈ w'.store.requests := by
  obtain ⟨s, time, time', hcommit, hstore⟩ := h.committed
  have hq : { r with status := .analysisComplete, updatedAt := time } ∈ s.requests := by
    rw [Store.requests_commitAnalysis hcommit]
    exact Store.mem_updateWhere.mpr ⟨r, h.request, if_pos (decide_eq_true rfl)⟩
  rw [hstore, Store.review]
  split
  · exact ⟨_, _, rfl, Store.mem_updateWhere.mpr ⟨_, hq, if_pos (decide_eq_true rfl)⟩⟩
  · exact ⟨_, _, rfl, hq⟩

theorem Analyzes.exists_request (h : Analyzes setup r found report w w') :
    ∃ q ∈ w'.store.requests, r.Same q ∧ q.status.isReady = true := by
  obtain ⟨status, time, hready, hq⟩ := h.mem_requests
  exact ⟨_, hq, ⟨rfl, rfl, rfl⟩, hready⟩

/-- The other requests stay as they are. -/
theorem Analyzes.mem_requests_of_ne (h : Analyzes setup r found report w w') {q : ChangeRequest}
    (hq : q ∈ w.store.requests) (hne : q.id ≠ r.id) : q ∈ w'.store.requests := by
  obtain ⟨s, time, time', hcommit, hstore⟩ := h.committed
  have hstays : q ∈ s.requests := by
    rw [Store.requests_commitAnalysis hcommit]
    exact Store.mem_updateWhere.mpr ⟨q, hq, if_neg fun hp => hne (of_decide_eq_true hp)⟩
  rw [hstore, Store.review]
  split
  · exact Store.mem_updateWhere.mpr ⟨q, hstays, if_neg fun hp => hne (of_decide_eq_true hp)⟩
  · exact hstays

/-- A component that is reached is there. -/
theorem Analyzes.exists_component (h : Analyzes setup r found report w w')
    (hw : w.store.Consistent) {c : String} (hc : c ∈ report.affectedComponents) :
    ∃ k ∈ w.store.components, k.id = c := by
  rw [h.reported, h.fits.affected] at hc
  exact Store.hasComponent_iff.mp (hasComponent_of_reached hw hc)

theorem Analyzes.change_eq (h : Analyzes setup r found report w w') {i : Impact}
    (hi : i ∈ found.impacts) : i.change = r.id := (h.fits.of_mem_impacts hi).1

/-- Only reached components get impacts. -/
theorem Analyzes.component_mem (h : Analyzes setup r found report w w') (hw : w.store.Consistent)
    {i : Impact} (hi : i ∈ found.impacts) : i.component ∈ report.affectedComponents := by
  rw [h.reported, h.fits.mem_affected hw]
  exact ((h.fits.mem_map_impacts hw).mp (List.mem_map_of_mem hi)).1

/-- A reached component gets impacts if it has contributors. -/
theorem Analyzes.exists_impact_iff (h : Analyzes setup r found report w w')
    (hw : w.store.Consistent) {c : String} (hc : c ∈ report.affectedComponents) :
    (∃ i ∈ found.impacts, i.component = c) ↔ ∃ m ∈ w.store.contributors, m.component = c := by
  rw [h.reported, h.fits.mem_affected hw] at hc
  constructor
  · rintro ⟨i, hi, rfl⟩
    obtain ⟨-, m, hm, hmc, -⟩ := (h.fits.mem_map_impacts hw).mp (List.mem_map_of_mem hi)
    exact ⟨m, hm, hmc⟩
  · rintro ⟨m, hm, hmc⟩
    obtain ⟨i, hi, heq⟩ := List.mem_map.mp ((h.fits.mem_map_impacts hw).mpr ⟨hc, m, hm, hmc, rfl⟩)
    exact ⟨i, hi, (Prod.mk.inj heq).1⟩

/-- The impacts of the request are those that the analysis found, if there were none before. -/
theorem Analyzes.foundOn (h : Analyzes setup r found report w w')
    (hnone : ∀ i ∈ w.store.impacts, i.change ≠ r.id) :
    w'.store.foundOn r.id = found.impacts.map (·.found) := by
  have hold : (w.store.impacts.map (·.found)).filter (·.change = r.id) = [] :=
    Store.foundOn_eq_nil hnone
  rw [Store.foundOn, h.impacts, List.map_append, List.filter_append, hold, List.nil_append,
    List.filter_eq_self]
  intro _ hfound
  obtain ⟨i, hi, rfl⟩ := List.mem_map.mp hfound
  have hchange : i.change = r.id := h.change_eq hi
  exact decide_eq_true hchange

end Analyzes

section Step

variable {setup : Setup} {w w' : World} {a : Action}

theorem Row.Enters.impacts {s t : Store} {row : Row} (h : row.Enters s t) :
    t.impacts.map (·.found) = s.impacts.map (·.found) := by
  cases row with
  | file f =>
    obtain ⟨id, hrow⟩ := h
    rw [Store.eq_of_upsertFile hrow]
  | contributor c => exact Store.Alike.impacts h
  | edge project e => exact Store.Alike.impacts h
  | _ =>
    cases h
    rfl

/-- Impacts stay as they were found, and only an analysis finds new ones. -/
theorem Effect.impacts (h : Effect setup w a w') :
    w'.store.impacts.map (·.found) = w.store.impacts.map (·.found) ∨
      ∃ r found report, a = .analyze r.id ∧ Analyzes setup r found report w w' := by
  cases h with
  | aside _ alike => exact Or.inl alike.store.impacts
  | enter enters => exact Or.inl enters.impacts
  | objects => exact Or.inl rfl
  | load loads =>
    rw [loads.store]
    exact Or.inl rfl
  | analyze analyzes => exact Or.inr ⟨_, _, _, rfl, analyzes⟩
  | approve _ _ approves =>
    obtain ⟨time, snapshot, hcommit⟩ := approves.promotes.written
    exact Or.inl (approves.alike.store.impacts.trans
      (congrArg _ (Store.impacts_commitApproval hcommit)))
  | retract _ _ retracted => exact Or.inl (congrArg (·.impacts.map (·.found)) retracted.store)
  | reject _ _ _ written =>
    obtain ⟨time, hstore⟩ := written
    rw [hstore]
    exact Or.inl rfl

/-- A request that was analysed keeps its impacts as they were found. -/
theorem Effect.foundOn (h : Effect setup w a w') (hk : Store.Keyed (·.id) w.store.requests)
    {q : ChangeRequest} (hq : q ∈ w.store.requests) (hs : q.status.isWaiting = false) :
    w'.store.foundOn q.id = w.store.foundOn q.id := by
  rcases h.impacts with heq | ⟨r, found, report, -, hanalyzes⟩
  · rw [Store.foundOn, heq]
    rfl
  · have hne : r.id ≠ q.id := by
      intro hid
      rw [← hk.eq_of_key_eq hanalyzes.request hq hid, hanalyzes.pending] at hs
      cases hs
    have hnone : (found.impacts.map (·.found)).filter (·.change = q.id) = [] := by
      rw [List.filter_eq_nil_iff]
      intro _ hfound hchange
      obtain ⟨i, hi, rfl⟩ := List.mem_map.mp hfound
      exact hne ((hanalyzes.change_eq hi).symm.trans (of_decide_eq_true hchange))
    rw [Store.foundOn, hanalyzes.impacts, List.map_append, List.filter_append, hnone,
      List.append_nil]
    rfl

end Step

/-! ## Whole runs -/

/-- A request that was analysed does not wait for an analysis again. -/
theorem LegalMove.isWaiting_eq_false {request : String} {a : Action} {s t : ChangeStatus}
    (h : LegalMove request a s t) (hs : s.isWaiting = false) : t.isWaiting = false := by
  cases h with
  | stay => exact hs
  | submit => cases hs
  | analyze => cases hs
  | analyzeThrough => cases hs
  | review => rfl
  | approve => rfl
  | reject => rfl

/-- A request gets ready by its analysis alone. -/
theorem LegalMove.eq_of_isReady {request : String} {a : Action} {s t : ChangeStatus}
    (h : LegalMove request a s t) (ht : t.isReady = true) :
    s.isReady = true ∨ a = .analyze request ∧ s = .pendingAnalysis := by
  cases h with
  | stay => exact Or.inl ht
  | submit => cases ht
  | analyze => exact Or.inr ⟨rfl, rfl⟩
  | analyzeThrough => exact Or.inr ⟨rfl, rfl⟩
  | review => exact Or.inl rfl
  | approve => cases ht
  | reject => cases ht

variable {setup : Setup} {w : World}

theorem foundOn_run (setup : Setup) (h : w.store.Intact) (actions : List Action) {q : ChangeRequest}
    (hq : q ∈ w.store.requests) (hs : q.status.isWaiting = false) :
    (run setup w actions).store.foundOn q.id = w.store.foundOn q.id := by
  induction actions generalizing w q with
  | nil => rfl
  | cons a actions ih =>
    obtain ⟨d, hd, hadv⟩ := exists_advance setup h a hq
    have hid : d.request.id = q.id := hadv.request.id
    have hrest := ih ((grows_step setup w a).intact h) (Store.mem_dossiers.mp hd).1
      (hadv.legal.isWaiting_eq_false hs)
    rw [hid] at hrest
    exact hrest.trans ((effect_step setup h a).foundOn h.requestIds hq hs)

/-- A request that waits for its analysis has no impacts. -/
theorem change_ne_of_pending (h : w.store.AllAgree) {r : ChangeRequest} (hr : r ∈ w.store.requests)
    (hs : r.status = .pendingAnalysis) : ∀ i ∈ w.store.impacts, i.change ≠ r.id := by
  have hnone : (w.store.dossier r).impacts = [] :=
    (h _ (List.mem_map_of_mem hr)).waiting (Or.inr hs)
  intro i hi hc
  have hmem : i ∈ (w.store.dossier r).impacts := List.mem_filter.mpr ⟨hi, decide_eq_true hc⟩
  rw [hnone] at hmem
  cases hmem

/-- A request that an action moves on from waiting is analysed by it. -/
theorem exists_analyzes (h : w.store.Intact) {r : ChangeRequest} (hr : r ∈ w.store.requests)
    {r' : ChangeRequest} (hr' : r' ∈ (step setup w (.analyze r.id)).store.requests)
    (hid : r'.id = r.id) (hmoved : r'.status ≠ r.status) :
    ∃ found report, Analyzes setup r found report w (step setup w (.analyze r.id)) := by
  have hne : (step setup w (.analyze r.id)).store ≠ w.store := by
    intro heq
    rw [heq] at hr'
    exact hmoved (congrArg _ (h.requestIds.eq_of_key_eq hr' hr hid))
  obtain ⟨report, hok, -⟩ := (analyzeRequest_yields setup r.id h.requestIds
    (fun _ hv => hv) (Or.inl h)).of_changed (fun v hv => hv.store) hne
  obtain ⟨q, found, hqid, hanalyzes⟩ := analyzeRequest_analyzes setup h r.id
    (Prod.ext hok rfl : exec (analyzeRequest setup r.id) w = (.ok report, _))
  cases h.requestIds.eq_of_key_eq hanalyzes.request hr hqid
  exact ⟨found, report, hanalyzes⟩

/-- A pending request can be analysed. -/
theorem exists_analyzes_of_pending (setup : Setup) (h : w.store.Intact) {r : ChangeRequest}
    (hr : r ∈ w.store.requests) (hs : r.status = .pendingAnalysis) (hnew : w.IsFresh) :
    ∃ found report, Analyzes setup r found report w (step setup w (.analyze r.id)) ∧
      (step setup w (.analyze r.id)).IsFresh := by
  obtain ⟨report, w', he, hfresh⟩ := (analyzeRequest_succeeds setup h hr hs hnew).exists_ok
  obtain ⟨q, found, hid, hanalyzes⟩ := analyzeRequest_analyzes setup h r.id he
  obtain rfl : q = r := h.requestIds.eq_of_key_eq hanalyzes.request hr hid
  rw [step_eq_of_exec (a := .analyze q.id) he]
  exact ⟨found, report, hanalyzes, hfresh⟩

/-- The action is the analysis of a request that had no impacts before. -/
def ChangeRequest.AnalysedBy (setup : Setup) (r : ChangeRequest) (v : World) (a : Action) : Prop :=
  a = .analyze r.id ∧ (∀ i ∈ v.store.impacts, i.change ≠ r.id) ∧
    ∃ q found report, q.id = r.id ∧ q.author = r.author ∧ q.component = r.component ∧
      Analyzes setup q found report v (step setup v a)

/-- The analysis is that of the request whatever has become of it. -/
theorem ChangeRequest.AnalysedBy.advance {strict : Prop} {d d' : Dossier} {v : World}
    {a b : Action} (h : d.request.AnalysedBy setup v a) (hadv : Advance strict b d d') :
    d'.request.AnalysedBy setup v a := by
  have hid : d'.request.id = d.request.id := hadv.column fun _ _ _ _ => rfl
  have hauthor : d'.request.author = d.request.author := hadv.column fun _ _ _ _ => rfl
  have hcomponent : d'.request.component = d.request.component := hadv.column fun _ _ _ _ => rfl
  rwa [ChangeRequest.AnalysedBy, hid, hauthor, hcomponent]

/-- A request that is ready for a decision on its impacts was analysed in the run, if it waited
for that at its start. -/
theorem occurs_of_ready (h : Reachable setup w) (actions : List Action) {r : ChangeRequest}
    (hwaits : ∀ q ∈ w.store.requests, q.id = r.id → q.status.isWaiting = true)
    (hr : r ∈ (run setup w actions).store.requests)
    (hready : r.status.isReady = true) :
    Occurs setup w actions (r.AnalysedBy setup) := by
  refine occurs_of_mem (I := fun v => v.store.Intact ∧ v.store.AllAgree) (T := (·.requests))
    (P := fun y => y.id = r.id ∧ y.status.isReady = true)
    (C := ChangeRequest.AnalysedBy setup) ⟨h.intact, h.allAgree⟩
    (fun v a hv => ⟨(grows_step setup v a).intact hv.1, allAgree_step hv.1 hv.2 a⟩)
    (fun y hy hready => ?_) (fun v a hv y hy hready => ?_) actions hr ⟨rfl, hready⟩
  · obtain ⟨hid, hs⟩ := hready
    have hw := hwaits y hy hid
    cases hy : y.status <;> rw [hy] at hs hw <;> cases hs <;> cases hw
  · obtain ⟨hid, hready⟩ := hready
    rcases advance_origin setup hv.1 a hy with ⟨x, hx, hadv⟩ | hnew
    · have hxid : y.id = x.id := hadv.request.id
      have hcause (ha : a = .analyze x.id) (hs : x.status = .pendingAnalysis) :
          y.AnalysedBy setup v a := by
        subst ha
        have hmoved : y.status ≠ x.status := by
          intro hsame
          rw [hsame, hs] at hready
          cases hready
        obtain ⟨found, report, hanalyzes⟩ := exists_analyzes hv.1 hx hy hxid hmoved
        exact ChangeRequest.AnalysedBy.advance (d := v.store.dossier x)
          ⟨rfl, change_ne_of_pending hv.2 hx hs, x, found, report, rfl, rfl, rfl, hanalyzes⟩ hadv
      rcases LegalMove.eq_of_isReady hadv.legal hready with hs | ⟨ha, hs⟩
      · exact Or.inr ⟨x, hx, ⟨hxid.symm.trans hid, hs⟩, fun u b hx =>
          ChangeRequest.AnalysedBy.advance (d := v.store.dossier x) hx hadv⟩
      · exact Or.inl (hcause ha hs)
    · have hwaiting : y.status = .draft ∨ y.status = .pendingAnalysis := hnew.status
      rcases hwaiting with hs | hs
      · rw [hs] at hready
        cases hready
      · rw [hs] at hready
        cases hready

/-- Then it still has the impacts that were found by that analysis. -/
theorem run_analysed (h : Reachable setup w) (actions : List Action) {r : ChangeRequest}
    (hwaits : ∀ q ∈ w.store.requests, q.id = r.id → q.status.isWaiting = true)
    (hr : r ∈ (run setup w actions).store.requests)
    (hready : r.status.isReady = true) :
    ∃ earlier later q found report, actions = earlier ++ .analyze r.id :: later ∧
      q.id = r.id ∧ q.author = r.author ∧ q.component = r.component ∧
      Analyzes setup q found report (run setup w earlier)
        (step setup (run setup w earlier) (.analyze r.id)) ∧
      (run setup w actions).store.foundOn r.id = found.impacts.map (·.found) := by
  obtain ⟨earlier, _, later, heq, rfl, hnone, q, found, report, hid, hauthor, hcomponent,
    hanalyzes⟩ := occurs_of_ready h actions hwaits hr hready
  refine ⟨earlier, later, q, found, report, heq, hid, hauthor, hcomponent, hanalyzes, ?_⟩
  have hintact := (h.run earlier).intact
  obtain ⟨q', hq', hsame, hs⟩ := hanalyzes.exists_request
  have hfound := hanalyzes.foundOn fun i hi => (hnone i hi).trans_eq hid.symm
  have hrest := foundOn_run setup ((grows_step setup _ (.analyze r.id)).intact hintact) later hq'
    (ChangeStatus.isWaiting_of_isReady hs)
  rw [hid] at hfound
  rw [hsame.id, hid] at hrest
  rw [heq, run_append]
  exact hrest.trans hfound

end ChangeImpact
