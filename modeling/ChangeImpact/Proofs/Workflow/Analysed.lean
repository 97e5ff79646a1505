import ChangeImpact.Proofs.Graph.Stored
import ChangeImpact.Proofs.Propagation
import ChangeImpact.Proofs.Workflow.Identifiers
import ChangeImpact.Proofs.Workflow.News
import ChangeImpact.Proofs.Workflow.Outcomes
import ChangeImpact.Workflow.Analysis

/-!
# How an analysis ends

An analysis that succeeds has stored what follows from the author's drafts, the files
and the edges of the project, all at once, and has then looked at the request again.
In an intact store an analysis that fails has changed nothing, and one of a pending
request does not fail while the identifiers that are handed out are new.
-/

namespace ChangeImpact

open Operation

/-- What an analysis finds: the drafts next to their files, the components that the change
reaches, and the impacts on their contributors. -/
structure Analysis where
  drafted : List DraftedFile
  affected : List AffectedComponent
  impacts : List Impact

namespace Analysis

/-- The exports that the drafts change, ascending. -/
def changed (a : Analysis) : List String := Ordered.ofList (a.drafted.flatMap (·.changed))

/-- Whether a draft differs from its file. -/
def differs (a : Analysis) : Bool := a.drafted.any fun d => !d.difference.isEmpty

/-- It is what the store and the objects give for a request. -/
structure Fits (setup : Setup) (w : World) (r : ChangeRequest) (a : Analysis) : Prop where
  drafted : a.drafted = (w.store.activeDrafts r.author r.component).filterMap fun d =>
    (w.store.files.find? (·.id = d.file)).map fun f => compareDraft setup.grammar w.objects f d
  affected : a.affected = affectedComponents r.component a.changed a.differs
    (w.store.edgesInto r.project r.component) (ExportIndex.build (w.store.indexed r.project))
  impacts : List.Forall₂ (fun x i => ∃ time id, i = impactOn r.id time x.1 x.2 id)
    (impactedContributors a.affected fun component =>
      (w.store.contributorsOf component).map (·.user)) a.impacts

end Analysis

variable {w : World} {E : World → Prop}

/-- Comparing drafts only reads, so it fails only if something cannot be read. -/
theorem compareDrafts_yields (hE : w.store.damaged ≠ [] → E w) (grammar : Grammar)
    (drafts : List Draft) :
    Yields (compareDrafts grammar drafts) w E fun drafted w' =>
      drafted = drafts.filterMap (fun d =>
        (w.store.files.find? (·.id = d.file)).map fun f => compareDraft grammar w.objects f d) ∧
      w' = w := by
  rw [compareDrafts]
  induction drafts with
  | nil => exact ⟨rfl, rfl⟩
  | cons d drafts ih =>
    rw [List.filterMapM_cons]
    refine Yields.bind (P := fun found v =>
      found = (w.store.files.find? (·.id = d.file)).map (fun f =>
        compareDraft grammar w.objects f d) ∧ v = w) ?_ ?_
    · refine Yields.read (fun hn => hE fun hd => ?_) fun found hfound => ?_
      · exact hn _ (Store.readFirst_of_readable hd _)
      · exact ⟨by rw [Store.eq_of_readFirst hfound], rfl⟩
    · rintro found _ ⟨hfound, rfl⟩
      rw [List.filterMap_cons, ← hfound]
      cases found with
      | none => exact ih
      | some drafted =>
        refine Yields.bind ih ?_
        rintro rest _ ⟨rfl, rfl⟩
        exact ⟨rfl, rfl⟩

/-- A result that is stored replaces the status, appends the impacts and flags the reached
components. -/
theorem Store.eq_of_commitAnalysis {s t : Store} {id : String} {is : List Impact}
    {flagged : List String} {now : Instant}
    (h : s.commitAnalysis id is flagged now = .ok (true, t)) :
    ∃ u, (s.updateRequest id fun r =>
        { r with status := .analysisComplete, updatedAt := now }).insertImpacts is = .ok u ∧
      t = u.setComponentStatus flagged .flagged := by
  rw [Store.commitAnalysis] at h
  split at h
  · obtain ⟨u, hu, h⟩ := Store.bind_eq_ok.mp h
    cases h
    exact ⟨u, hu, rfl⟩
  · cases h

/-- A result that is not stored changes nothing. -/
theorem Store.eq_self_of_commitAnalysis {s t : Store} {id : String} {is : List Impact}
    {flagged : List String} {now : Instant}
    (h : s.commitAnalysis id is flagged now = .ok (false, t)) : t = s := by
  rw [Store.commitAnalysis] at h
  split at h
  · obtain ⟨u, -, h⟩ := Store.bind_eq_ok.mp h
    cases h
  · cases h
    rfl

theorem Store.requests_commitAnalysis {s t : Store} {id : String} {is : List Impact}
    {flagged : List String} {now : Instant}
    (h : s.commitAnalysis id is flagged now = .ok (true, t)) :
    t.requests = Store.updateWhere (·.id = id) (fun r =>
      { r with status := .analysisComplete, updatedAt := now }) s.requests := by
  obtain ⟨u, hu, rfl⟩ := Store.eq_of_commitAnalysis h
  rw [Store.eq_of_insertImpacts hu]
  rfl

theorem Store.impacts_commitAnalysis {s t : Store} {id : String} {is : List Impact}
    {flagged : List String} {now : Instant}
    (h : s.commitAnalysis id is flagged now = .ok (true, t)) : t.impacts = s.impacts ++ is := by
  obtain ⟨u, hu, rfl⟩ := Store.eq_of_commitAnalysis h
  rw [Store.eq_of_insertImpacts hu]
  rfl

theorem Store.components_commitAnalysis {s t : Store} {id : String} {is : List Impact}
    {flagged : List String} {now : Instant}
    (h : s.commitAnalysis id is flagged now = .ok (true, t)) :
    t.components = Store.updateWhere (fun c => flagged.contains c.id)
      (fun c => { c with status := .flagged }) s.components := by
  obtain ⟨u, hu, rfl⟩ := Store.eq_of_commitAnalysis h
  rw [Store.eq_of_insertImpacts hu]
  rfl

/-- The request is still there, with its new status. -/
theorem Store.exists_of_commitAnalysis {s t : Store} {r : ChangeRequest} {is : List Impact}
    {flagged : List String} {now : Instant}
    (h : s.commitAnalysis r.id is flagged now = .ok (true, t)) (hr : r ∈ s.requests) :
    ∃ q ∈ t.requests, q.id = r.id ∧ q.status = .analysisComplete := by
  refine ⟨{ r with status := .analysisComplete, updatedAt := now }, ?_, rfl, rfl⟩
  rw [requests_commitAnalysis h]
  exact mem_updateWhere.mpr ⟨r, hr, if_pos (decide_eq_true rfl)⟩

/-- An analysis ends with its result stored, those whom it concerns told, and the request looked
at again. Only that last look may fail afterwards, and not in an intact store. -/
theorem analyzeRequest_yields (setup : Setup) (id : String)
    (hk : Store.Keyed (·.id) w.store.requests) (hE : ∀ v, w.Untouched v → E v)
    (hlook : w.store.Intact ∨ ∀ v, E v) :
    Yields (analyzeRequest setup id) w E fun report w' =>
      ∃ r ∈ w.store.requests, r.id = id ∧ r.status = .pendingAnalysis ∧
        ∃ a : Analysis, a.Fits setup w r ∧
          (∃ s time time',
            w.store.commitAnalysis r.id a.impacts (a.affected.map (·.component)) time =
              .ok (true, s) ∧ w'.store = s.review r.id time') ∧
          w'.objects = w.objects ∧ report.affectedComponents = a.affected.map (·.component) ∧
          ∃ u time status,
            w.store.commitAnalysis r.id a.impacts (a.affected.map (·.component)) time =
              .ok (true, u.store) ∧
            u.events = w.events ++ Dossier.news .parserComplete ⟨r, a.impacts⟩ ∧
            exec (reEvaluate r.id) u = (.ok status, w') := by
  have hw : E w := hE w (.refl w)
  refine Yields.need (fun _ => hw) fun r hr => ?_
  obtain ⟨hm, rfl⟩ := Store.mem_of_request? hr
  refine Yields.require (fun _ => hw) fun hstatus => ?_
  refine Yields.query ?_
  refine Yields.bind (compareDrafts_yields (fun _ => hw) _ _) ?_
  rintro drafted w ⟨hdrafted, rfl⟩
  refine Yields.read (fun _ => hw) fun files hfiles => ?_
  refine Yields.query (Yields.query (Yields.now ?_))
  refine Yields.bind (Yields.mapM (I := w.Untouched)
    (R := fun x i => ∃ time id, i = impactOn r.id time x.1 x.2 id) ⟨rfl, rfl, rfl⟩ ?_) ?_
  · rintro x - v hv
    exact ⟨⟨_, _, rfl⟩, hv.trans ⟨rfl, rfl, rfl⟩⟩
  rintro impacts v ⟨himpacts, hv⟩
  refine Yields.now (Yields.writeWith (hE _ (hv.trans ⟨rfl, rfl, rfl⟩)) fun done s hs => ?_)
  rw [show ({ v with clock := ⟨v.clock.nanos + tick⟩ } : World).store = w.store from hv.store] at hs
  cases done with
  | false =>
    have hself : E { v with clock := ⟨v.clock.nanos + tick⟩, store := s } :=
      hE _ ⟨Store.eq_self_of_commitAnalysis hs, hv.objects, hv.events⟩
    exact Yields.need (fun _ => hself) fun current _ => hself
  | true =>
    have hks : Store.Keyed (·.id) s.requests := by
      rw [Store.requests_commitAnalysis hs]
      exact hk.updateWhere fun _ _ => rfl
    have hreq : s.hasRequest r.id = true := by
      obtain ⟨q, hq, hid, -⟩ := Store.exists_of_commitAnalysis hs hm
      exact Store.hasRequest_iff.mpr ⟨q, hq, hid⟩
    refine Yields.forM_publish (Yields.publish
      (Yields.bind (reEvaluate_yields hks fun hn => ?_).answered ?_))
    · rcases hlook with hintact | hall
      · exact absurd ⟨(hintact.commitAnalysis hs).readable, hreq⟩ hn
      · exact hall _
    · rintro status w' ⟨hlast, ⟨time', hstore⟩, hobjects, -⟩
      refine ⟨r, hm, rfl, of_decide_eq_true hstatus,
        { drafted, affected := _, impacts }, ⟨hdrafted, ?_, himpacts⟩, ⟨s, _, time', hs, hstore⟩,
        hobjects.trans hv.objects, rfl, _, v.clock, status, ?_, ?_, hlast⟩
      · rw [Store.eq_of_readRows hfiles]
        rfl
      · exact hs
      · rw [hv.events, List.append_assoc, Dossier.news, Dossier.audience, List.map_append]
        rfl

/-! ## Analyses that succeed -/

/-- Impacts with new and different identifiers on a request and components that are there can
be added. -/
theorem Store.insertImpacts_eq_ok {s : Store} {is : List Impact} (hn : (is.map (·.id)).Nodup)
    (hnew : ∀ i ∈ is, ∀ j ∈ s.impacts, j.id ≠ i.id)
    (href : ∀ i ∈ is, s.hasRequest i.change = true ∧ s.hasComponent i.component = true) :
    s.insertImpacts is = .ok { s with impacts := s.impacts ++ is } := by
  induction is generalizing s with
  | nil =>
    rw [List.append_nil]
    rfl
  | cons i is ih =>
    rw [List.map_cons, List.nodup_cons] at hn
    have hfirst : s.insertImpact i = .ok { s with impacts := s.impacts ++ [i] } := by
      obtain ⟨hrequest, hcomponent⟩ := href i (List.mem_cons_self ..)
      refine demand_bind_ok.mpr ⟨?_, demand_bind_ok.mpr ⟨?_, rfl⟩⟩
      · rw [Bool.not_eq_true', List.any_eq_false]
        intro j hj hid
        exact hnew i (List.mem_cons_self ..) j hj (of_decide_eq_true hid)
      · rw [hrequest, hcomponent]
        rfl
    rw [insertImpacts, List.foldlM_cons, hfirst]
    refine (ih (s := { s with impacts := s.impacts ++ [i] }) hn.2 ?_
      fun j hj => href j (List.mem_cons_of_mem _ hj)).trans ?_
    · intro j hj k hk
      rcases List.mem_append.mp hk with hk | hk
      · exact hnew j (List.mem_cons_of_mem _ hj) k hk
      · rw [List.mem_singleton.mp hk]
        exact fun hid => hn.1 (hid ▸ List.mem_map_of_mem hj)
    · rw [List.append_assoc]
      rfl

/-- Then the result of the analysis of a pending request is stored. -/
theorem Store.exists_commitAnalysis {s : Store} (h : s.damaged = []) {r : ChangeRequest}
    (hr : r ∈ s.requests) (hs : r.status = .pendingAnalysis) {is : List Impact}
    (hn : (is.map (·.id)).Nodup) (hnew : ∀ i ∈ is, ∀ j ∈ s.impacts, j.id ≠ i.id)
    (href : ∀ i ∈ is, i.change = r.id ∧ s.hasComponent i.component = true)
    (flagged : List String) (now : Instant) :
    ∃ t, s.commitAnalysis r.id is flagged now = .ok (true, t) := by
  have hpending : s.statusIs r .pendingAnalysis = true := by
    rw [statusIs, isReadable_of_readable h, hs]
    rfl
  have hany : (s.requests.any fun q => q.id = r.id && s.statusIs q .pendingAnalysis) = true :=
    List.any_eq_true.mpr ⟨r, hr, by rw [hpending, decide_eq_true rfl]; rfl⟩
  have hmoved : (s.updateRequest r.id fun r =>
      { r with status := .analysisComplete, updatedAt := now }).hasRequest r.id = true :=
    hasRequest_iff.mpr ⟨_, mem_updateWhere.mpr ⟨r, hr, if_pos (decide_eq_true rfl)⟩, rfl⟩
  have hinsert := insertImpacts_eq_ok (s := s.updateRequest r.id fun r =>
    { r with status := .analysisComplete, updatedAt := now }) hn hnew
    fun i hi => ⟨(href i hi).1 ▸ hmoved, (href i hi).2⟩
  rw [commitAnalysis, if_pos hany, hinsert]
  exact ⟨_, rfl⟩

/-- Impacts get the next identifiers, one after the other. -/
theorem issue_succeeds (change : String) (time : Instant) (xs : List (AffectedComponent × String))
    (w : World) :
    Succeeds (xs.mapM fun (a, user) => do
        let id ← freshId
        pure (impactOn change time a user id)) w fun is w' =>
      is.map (·.id) = (List.range' w.issued xs.length).map idOf ∧
        (∀ i ∈ is, i.change = change ∧ ∃ x ∈ xs, i.component = x.1.component) ∧
        w'.issued = w.issued + xs.length ∧ w.Untouched w' := by
  induction xs generalizing w with
  | nil => exact ⟨rfl, fun _ hi => absurd hi List.not_mem_nil, rfl, .refl w⟩
  | cons x xs ih =>
    rw [List.mapM_cons]
    refine Yields.bind (P := fun i v => i = impactOn change time x.1 x.2 (idOf w.issued) ∧
      v = { w with issued := w.issued + 1 }) ⟨rfl, rfl⟩ ?_
    rintro i _ ⟨rfl, rfl⟩
    refine Yields.bind (ih _) ?_
    rintro is v ⟨hids, his, hissued, hv⟩
    refine ⟨?_, fun i hi => ?_, ?_, ⟨hv.store, hv.objects, hv.events⟩⟩
    · rw [List.map_cons, hids, List.length_cons, List.range'_succ, List.map_cons]
      rfl
    · rcases List.mem_cons.mp hi with rfl | hi
      · exact ⟨rfl, x, List.mem_cons_self .., rfl⟩
      · obtain ⟨hchange, y, hy, hcomponent⟩ := his i hi
        exact ⟨hchange, y, List.mem_cons_of_mem _ hy, hcomponent⟩
    · rw [hissued, List.length_cons, Nat.add_right_comm, Nat.add_assoc]

/-- A component that is reached has a file in the project. -/
theorem exists_file_of_reached {s : Store} {project component c : String}
    {changed : List String} {contentChanged : Bool} {edges : List DependencyEdge}
    (hc : c ∈ reachedBy component changed contentChanged edges
      (ExportIndex.build (s.indexed project))) :
    ∃ f ∈ s.files, f.project = project ∧ f.component = some c := by
  obtain ⟨-, g, hg, hcomponent, -⟩ := mem_reachedBy.mp hc
  obtain ⟨f, hf, hproject, hind⟩ := Store.mem_indexed.mp (ExportIndex.mem_of_mem_toList_build hg)
  obtain ⟨symbols, -, rfl⟩ := Option.map_eq_some_iff.mp hind
  exact ⟨f, hf, hproject, hcomponent⟩

/-- A component that is reached is there. -/
theorem hasComponent_of_reached {s : Store} (h : s.Consistent) {project component c : String}
    {changed : List String} {contentChanged : Bool} {edges : List DependencyEdge}
    (hc : c ∈ reachedBy component changed contentChanged edges
      (ExportIndex.build (s.indexed project))) : s.hasComponent c = true := by
  obtain ⟨f, hf, -, hcomponent⟩ := exists_file_of_reached hc
  exact Store.hasComponent_iff.mpr (h.fileComponents f hf c hcomponent)

/-- The identifiers that are still to be handed out are not those of impacts. -/
def World.IsFresh (w : World) : Prop :=
  ∀ n, w.issued ≤ n → ∀ i ∈ w.store.impacts, i.id ≠ idOf n

/-- In an intact store a pending request can be analysed, as long as the identifiers that are
still to be handed out are not taken. Then they are not taken afterwards either. -/
theorem analyzeRequest_succeeds (setup : Setup) (h : w.store.Intact) {r : ChangeRequest}
    (hr : r ∈ w.store.requests) (hs : r.status = .pendingAnalysis) (hnew : w.IsFresh) :
    Succeeds (analyzeRequest setup r.id) w fun _ w' => w'.IsFresh := by
  refine Yields.need_ok (h.request?_eq hr) ?_
  refine Yields.require (fun hf => absurd hs (of_decide_eq_false hf)) fun _ => ?_
  refine Yields.query ?_
  refine Yields.bind (compareDrafts_yields (fun hd => hd h.readable) _ _) ?_
  rintro drafted w ⟨-, rfl⟩
  refine Yields.read_ok (x := Store.byPath (w.store.files.filter (·.project = r.project)))
    (Store.readRows_of_readable h.readable _) ?_
  refine Yields.query (Yields.query (Yields.now ?_))
  refine Yields.bind (issue_succeeds r.id _ _ _) ?_
  rintro impacts v ⟨hids, himpacts, hissued, hv⟩
  have hfresh (i : Impact) (hi : i ∈ impacts) :
      ∃ n, w.issued ≤ n ∧ n < v.issued ∧ i.id = idOf n := by
    have hid := List.mem_map_of_mem (f := (·.id)) hi
    rw [hids] at hid
    obtain ⟨n, hn, heq⟩ := List.mem_map.mp hid
    obtain ⟨hle, hlt⟩ := List.mem_range'_1.mp hn
    exact ⟨n, hle, hissued ▸ hlt, heq.symm⟩
  obtain ⟨s, hcommit⟩ := Store.exists_commitAnalysis h.readable hr hs
    (hids ▸ List.Nodup.map idOf_injective List.nodup_range')
    (fun i hi j hj => by
      obtain ⟨n, hn, -, heq⟩ := hfresh i hi
      exact heq ▸ hnew n hn j hj)
    (fun i hi => by
      obtain ⟨hchange, x, hx, hcomponent⟩ := himpacts i hi
      obtain ⟨a, ha, hx⟩ := List.mem_flatMap.mp hx
      obtain ⟨user, -, rfl⟩ := List.mem_map.mp hx
      exact ⟨hchange, hcomponent ▸ hasComponent_of_reached h.toConsistent (List.mem_map_of_mem ha)⟩)
    _ v.clock
  have hrequest : s.hasRequest r.id = true := by
    obtain ⟨q, hq, hid, -⟩ := Store.exists_of_commitAnalysis hcommit hr
    exact Store.hasRequest_iff.mpr ⟨q, hq, hid⟩
  refine Yields.now (Yields.writeWith_ok (hv.store ▸ hcommit) ?_)
  refine Yields.forM_publish (Yields.publish (Yields.bind
    (reEvaluate_succeeds (h.commitAnalysis hcommit) hrequest) ?_))
  rintro _ w' ⟨⟨time, hstore⟩, -, hsame⟩ n hn i hi
  rw [hsame] at hn
  rw [hstore, Store.impacts_review, Store.impacts_commitAnalysis hcommit] at hi
  rcases List.mem_append.mp hi with hi | hi
  · exact hnew n (le_trans (hissued ▸ Nat.le_add_right ..) hn) i hi
  · obtain ⟨m, -, hm, heq⟩ := hfresh i hi
    rw [heq]
    exact fun hid => absurd (idOf_injective hid ▸ hm) (Nat.not_lt.mpr hn)

end ChangeImpact
