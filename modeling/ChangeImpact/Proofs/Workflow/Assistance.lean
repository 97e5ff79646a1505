import ChangeImpact.Proofs.Store.Uncommented
import ChangeImpact.Proofs.Workflow.Accountability

/-!
# What a language model cannot do

A language model comments on impacts and its author is told. Nothing else in the workflow
looks at either: leave out the comments and those notices, and every other action has the
same answer and leaves the same world. As commenting itself changes nothing but what is left
out, two runs that differ only in what a language model was asked and said, and
when, agree on everything else.
-/

namespace ChangeImpact

open Operation

/-- Whether a notice is about what a language model did. -/
def Notice.isAssistance : Notice → Bool
  | assistantComplete | assistantFailed => true
  | filesReady | parserComplete | pendingReview | approved | rejected => false

/-- The world without what a language model did: there are no comments, and nobody was told. -/
def World.unassisted (w : World) : World :=
  { w with
    store := w.store.uncommented
    events := w.events.filter (!·.notice.isAssistance) }

namespace Operation

variable {α β : Type}

/-- The operation does not listen to a language model: without what one did it has the same answer
and leaves the same world. -/
def IsDeaf (a : Operation α) : Prop :=
  ∀ w, exec a w.unassisted = ((exec a w).1, (exec a w).2.unassisted)

namespace IsDeaf

variable {a : Operation α} {f : α → Operation β}

theorem pure (x : α) : IsDeaf (Pure.pure x : Operation α) := fun _ => rfl

theorem fail (e : Failure) : IsDeaf (fail e : Operation α) := fun _ => rfl

/-- The second part may rely on what is known of the answers of the first. -/
theorem bind_of {P : α → Prop} (ha : IsDeaf a)
    (hP : ∀ w, Yields a w (fun _ => True) fun x _ => P x) (hf : ∀ x, P x → IsDeaf (f x)) :
    IsDeaf (a >>= f) := by
  intro w
  have hx := hP w
  rw [Yields] at hx
  rw [exec_bind, exec_bind, ha]
  cases h : exec a w with
  | mk result w' =>
    rw [h] at hx
    cases result with
    | error e => rfl
    | ok x => exact hf x hx w'

theorem bind (ha : IsDeaf a) (hf : ∀ x, IsDeaf (f x)) : IsDeaf (a >>= f) := by
  intro w
  rw [exec_bind, exec_bind, ha]
  cases exec a w with
  | mk result w' =>
    cases result with
    | error e => rfl
    | ok x => exact hf x w'

theorem get_bind {f : World → Operation β} (hf : ∀ w, IsDeaf (f w))
    (hg : ∀ w, f w.unassisted = f w) : IsDeaf (MonadState.get >>= f) := by
  intro w
  rw [exec_bind, exec_bind, exec_get, exec_get]
  dsimp only
  rw [hg]
  exact hf w w

theorem query {q : Store → α} (hq : ∀ s, q s.uncommented = q s) : IsDeaf (query q) := by
  intro w
  have hw : q w.unassisted.store = q w.store := hq w.store
  change (Except.ok (q w.unassisted.store), w.unassisted) = (Except.ok (q w.store), w.unassisted)
  rw [hw]

theorem read {q : Store → Except Failure α} (hq : ∀ s, q s.uncommented = q s) :
    IsDeaf (read q) := by
  intro w
  have hw : q w.unassisted.store = q w.store := hq w.store
  rw [exec_read, exec_read, hw]
  cases q w.store <;> rfl

/-- Where an answer has comments, what is done with it must be the same without them. -/
theorem read_bind {q : Store → Except Failure α} {g : α → α}
    (hq : ∀ s, q s.uncommented = (q s).map g) (hg : ∀ x, f (g x) = f x) (hf : ∀ x, IsDeaf (f x)) :
    IsDeaf (Operation.read q >>= f) := by
  intro w
  have hw : q w.unassisted.store = (q w.store).map g := hq w.store
  rw [exec_bind, exec_bind, exec_read, exec_read, hw]
  cases q w.store with
  | error e => rfl
  | ok x =>
    change exec (f (g x)) w.unassisted = _
    rw [hg]
    exact hf x w

theorem need_bind {q : Store → Except Failure (Option α)} {what : String} {g : α → α}
    (hq : ∀ s, q s.uncommented = (q s).map (Option.map g)) (hg : ∀ x, f (g x) = f x)
    (hf : ∀ x, IsDeaf (f x)) : IsDeaf (Operation.need q what >>= f) := by
  intro w
  have hw : q w.unassisted.store = (q w.store).map (Option.map g) := hq w.store
  rw [exec_bind, exec_bind, exec_need, exec_need, hw]
  cases q w.store with
  | error e => rfl
  | ok found =>
    cases found with
    | none => rfl
    | some x =>
      change exec (f (g x)) w.unassisted = _
      rw [hg]
      exact hf x w

theorem need {q : Store → Except Failure (Option α)} (hq : ∀ s, q s.uncommented = q s)
    (what : String) : IsDeaf (need q what) := by
  refine bind (read hq) fun found => ?_
  cases found with
  | none => exact fail _
  | some x => exact pure x

theorem require (c : Bool) (e : Failure) : IsDeaf (require c e) := by
  cases c with
  | false => exact fail e
  | true => exact pure ()

theorem now : IsDeaf now := fun _ => rfl

theorem freshId : IsDeaf freshId := fun _ => rfl

theorem publish (user subject : String) {notice : Notice} (h : notice.isAssistance = false) :
    IsDeaf (publish user notice subject) := by
  intro w
  let e : Event := ⟨user, notice, subject⟩
  have hevents : (w.events ++ [e]).filter (!·.notice.isAssistance) =
      w.events.filter (!·.notice.isAssistance) ++ [e] := by
    rw [List.filter_append, List.filter_singleton, h]
    rfl
  rw [exec_publish, exec_publish]
  exact congrArg (fun events => (Except.ok (), { w.unassisted with events })) hevents.symm

theorem store (g : Objects → Except Failure Objects) : IsDeaf (store g) := by
  intro w
  have hw : g w.unassisted.objects = g w.objects := rfl
  rw [exec_store, exec_store, hw]
  cases g w.objects <;> rfl

theorem write {g : Store → Except Failure Store} (hg : Store.Overlooks g) : IsDeaf (write g) := by
  intro w
  have hw : g w.unassisted.store = (g w.store).map (·.uncommented) := hg w.store
  rw [exec_write, exec_write, hw]
  cases g w.store <;> rfl

theorem writeWith {g : Store → Except Failure (α × Store)} (hg : Store.OverlooksWith g) :
    IsDeaf (writeWith g) := by
  intro w
  have hw : g w.unassisted.store = (g w.store).map fun x => (x.1, x.2.uncommented) := hg w.store
  rw [exec_writeWith, exec_writeWith, hw]
  cases g w.store <;> rfl

theorem composes : Composes fun _ a => IsDeaf a := ⟨pure, bind⟩

end IsDeaf

end Operation

/-! ## Every action but one -/

theorem openCount_uncommented (is : List Impact) :
    openCount (is.map (·.uncommented)) = openCount is :=
  List.countP_map

theorem notifyDecision_uncommented (r : ChangeRequest) (is : List Impact) (notice : Notice) :
    notifyDecision r (is.map (·.uncommented)) notice = notifyDecision r is notice := by
  rw [notifyDecision, List.map_map]
  rfl

theorem isDeaf_createRequest (project component author title description : String)
    (submitted : Bool) :
    IsDeaf (createRequest project component author title description submitted) := by
  refine IsDeaf.bind (IsDeaf.need (fun _ => rfl) _) fun c => ?_
  refine IsDeaf.bind IsDeaf.now fun t => ?_
  refine IsDeaf.bind IsDeaf.freshId fun id => ?_
  exact IsDeaf.bind (IsDeaf.write (Store.overlooks_insertRequest _)) fun _ => IsDeaf.pure _

theorem isDeaf_submitRequest (id user : String) : IsDeaf (submitRequest id user) := by
  refine IsDeaf.bind (IsDeaf.need (fun _ => rfl) _) fun r => ?_
  refine IsDeaf.bind (IsDeaf.require _ _) fun _ => ?_
  refine IsDeaf.bind (IsDeaf.require _ _) fun _ => ?_
  refine IsDeaf.bind IsDeaf.now fun t => ?_
  exact IsDeaf.bind (IsDeaf.write (Store.overlooks_setStatus _ _ _)) fun _ => IsDeaf.pure _

/-- Whether a request is ready for review depends on how many of its impacts are open. -/
theorem isDeaf_reEvaluate (id : String) : IsDeaf (reEvaluate id) := by
  refine IsDeaf.bind (IsDeaf.need (fun _ => rfl) _) fun r => ?_
  split
  · exact IsDeaf.pure _
  · refine IsDeaf.read_bind (fun s => s.impactsOf_uncommented id) (fun is => ?_) fun is => ?_
    · simp only [openCount_uncommented]
    · split
      · exact IsDeaf.pure _
      · refine IsDeaf.bind IsDeaf.now fun t => ?_
        refine IsDeaf.bind (IsDeaf.write (Store.overlooks_setStatus _ _ _)) fun _ => ?_
        exact IsDeaf.bind (IsDeaf.publish _ _ rfl) fun _ => IsDeaf.pure _

private theorem isDeaf_checkResolvable (i : Impact) (user : String) (activity : Activity) :
    IsDeaf (checkResolvable i user activity) := by
  refine IsDeaf.bind (IsDeaf.require _ _) fun _ => ?_
  refine IsDeaf.bind (IsDeaf.require _ _) fun _ => ?_
  exact IsDeaf.bind (IsDeaf.need (fun _ => rfl) _) fun r => IsDeaf.require _ _

theorem isDeaf_acknowledgeImpact (id user : String) : IsDeaf (acknowledgeImpact id user) := by
  refine IsDeaf.need_bind (fun s => s.impact?_uncommented id) (fun _ => rfl) fun i => ?_
  refine IsDeaf.bind (isDeaf_checkResolvable _ _ _) fun _ => ?_
  refine IsDeaf.bind IsDeaf.now fun t => ?_
  refine IsDeaf.bind (IsDeaf.writeWith (Store.overlooks_acknowledge _ _ _)) fun done => ?_
  exact IsDeaf.bind (IsDeaf.require _ _) fun _ => isDeaf_reEvaluate _

theorem isDeaf_dismissImpact (id user : String) : IsDeaf (dismissImpact id user) := by
  refine IsDeaf.need_bind (fun s => s.impact?_uncommented id) (fun _ => rfl) fun i => ?_
  refine IsDeaf.bind (isDeaf_checkResolvable _ _ _) fun _ => ?_
  refine IsDeaf.bind (IsDeaf.require _ _) fun _ => ?_
  refine IsDeaf.bind IsDeaf.now fun t => ?_
  refine IsDeaf.bind (IsDeaf.writeWith (Store.overlooks_dismiss _ _)) fun done => ?_
  exact IsDeaf.bind (IsDeaf.require _ _) fun _ => isDeaf_reEvaluate _

section Sweep

variable {α : Type} {g : α → α} {p : α → Operation Bool}

private theorem filterAuxM_map (hp : ∀ x, p (g x) = p x) (xs acc : List α) :
    List.filterAuxM p (xs.map g) (acc.map g) = List.map g <$> List.filterAuxM p xs acc := by
  induction xs generalizing acc with
  | nil => exact (map_pure _ _).symm
  | cons x xs ih =>
    rw [List.map_cons, List.filterAuxM, List.filterAuxM, hp, map_bind]
    refine congrArg (p x >>= ·) (funext fun b => ?_)
    cases b with
    | false => exact ih acc
    | true => exact ih (x :: acc)

/-- What a choice does not look at can be changed before or after it. -/
theorem filterM_map (hp : ∀ x, p (g x) = p x) (xs : List α) :
    (xs.map g).filterM p = List.map g <$> xs.filterM p := by
  rw [List.filterM, List.filterM, ← List.map_nil, filterAuxM_map hp, map_bind, bind_map_left]
  refine congrArg (List.filterAuxM p xs [] >>= ·) (funext fun ys => ?_)
  rw [map_pure, List.map_reverse]

/-- A sweep looks at the age of impacts and at whether they are open. -/
theorem isDeaf_sweep (time : Instant) (threshold : Int) : IsDeaf (sweep time threshold) := by
  rw [sweep]
  split
  · exact IsDeaf.fail _
  · refine IsDeaf.read_bind (fun s => s.openImpacts_uncommented) (fun found => ?_) fun found => ?_
    · let plain (x : Impact × Instant) : Impact × Instant := (x.1.uncommented, x.2)
      have hconfirm (x : Impact × Instant) : confirm time (plain x).1 = confirm time x.1 := rfl
      dsimp only
      rw [List.filter_map, filterM_map (g := plain) hconfirm, bind_map_left]
      simp only [List.map_map, List.length_map]
      rfl
    · refine IsDeaf.bind (IsDeaf.composes.filterM fun x => ?_) fun confirmed => ?_
      · exact IsDeaf.writeWith (Store.overlooks_acknowledge _ _ _)
      · refine IsDeaf.bind (IsDeaf.composes.forM fun id => ?_) fun _ => IsDeaf.pure _
        exact IsDeaf.bind (isDeaf_reEvaluate id) fun _ => IsDeaf.pure _

end Sweep

theorem isDeaf_compareDrafts (grammar : Grammar) (drafts : List Draft) :
    IsDeaf (compareDrafts grammar drafts) :=
  IsDeaf.composes.filterMapM fun _ => IsDeaf.bind (IsDeaf.read fun _ => rfl) fun _ =>
    IsDeaf.get_bind (fun _ => IsDeaf.pure _) fun _ => rfl

/-- An analysis stores impacts without comments. -/
theorem isDeaf_analyzeRequest (setup : Setup) (id : String) :
    IsDeaf (analyzeRequest setup id) := by
  refine IsDeaf.bind (IsDeaf.need (fun _ => rfl) _) fun r => ?_
  refine IsDeaf.bind (IsDeaf.require _ _) fun _ => ?_
  refine IsDeaf.bind (IsDeaf.query fun _ => rfl) fun drafts => ?_
  refine IsDeaf.bind (isDeaf_compareDrafts _ _) fun drafted => ?_
  refine IsDeaf.bind (IsDeaf.read fun _ => rfl) fun files => ?_
  refine IsDeaf.bind (IsDeaf.query fun _ => rfl) fun edges => ?_
  refine IsDeaf.bind (IsDeaf.query fun _ => rfl) fun contributors => ?_
  refine IsDeaf.bind IsDeaf.now fun t => ?_
  refine IsDeaf.bind_of (P := fun is => ∀ i ∈ is, i.comment = none) ?_ ?_ fun impacts hplain => ?_
  · exact IsDeaf.composes.mapM fun x => IsDeaf.bind IsDeaf.freshId fun _ => IsDeaf.pure _
  · intro w
    refine Yields.imp (Yields.mapM (R := fun _ i => i.comment = none) (I := fun _ => True) trivial
      fun x _ v _ => ?_) (fun _ h => h) ?_
    · exact ⟨rfl, trivial⟩
    · rintro is v ⟨his, -⟩ i hi
      obtain ⟨x, -, hplain⟩ := Store.exists_left_of_forall₂ his hi
      exact hplain
  · refine IsDeaf.bind IsDeaf.now fun t => ?_
    refine IsDeaf.bind (IsDeaf.writeWith (Store.overlooks_commitAnalysis _ hplain _ _))
      fun done => ?_
    have htail (report : ChangeStatus → ImpactReport) : IsDeaf (do
        (Ordered.ofList (impacts.map (·.contributor))).forM fun user =>
          publish user .parserComplete r.id
        publish r.author .parserComplete r.id
        let status ← reEvaluate r.id
        pure (report status)) := by
      refine IsDeaf.bind (IsDeaf.composes.forM fun _ => IsDeaf.publish _ _ rfl) fun _ => ?_
      refine IsDeaf.bind (IsDeaf.publish _ _ rfl) fun _ => ?_
      exact IsDeaf.bind (isDeaf_reEvaluate _) fun _ => IsDeaf.pure _
    cases done with
    | false =>
      exact IsDeaf.bind (IsDeaf.need (fun _ => rfl) _) fun _ =>
        IsDeaf.bind (IsDeaf.fail _) fun _ => htail _
    | true => exact htail _

private theorem isDeaf_storeAndCommit (contents : List (String × Bytes)) (commit : ApprovalCommit) :
    IsDeaf (storeAndCommit contents commit) := by
  intro w
  have hcommit : w.unassisted.store.commitApproval commit (idOf w.unassisted.issued) =
      (w.store.commitApproval commit (idOf w.issued)).map (·.uncommented) :=
    Store.overlooks_commitApproval commit (idOf w.issued) w.store
  have hobjects : putAll contents w.unassisted.objects = putAll contents w.objects := rfl
  rw [exec_storeAndCommit, exec_storeAndCommit, hcommit, hobjects]
  rcases putAll contents w.objects with ⟨keys, refusal, o⟩
  cases refusal with
  | some e => rfl
  | none => cases w.store.commitApproval commit (idOf w.issued) <;> rfl

private theorem isDeaf_notifyDecision (r : ChangeRequest) (is : List Impact) {notice : Notice}
    (h : notice.isAssistance = false) : IsDeaf (notifyDecision r is notice) :=
  IsDeaf.composes.forM fun _ => IsDeaf.publish _ _ h

theorem isDeaf_approveRequest (setup : Setup) (id user : String) :
    IsDeaf (approveRequest setup id user) := by
  refine IsDeaf.bind (IsDeaf.need (fun _ => rfl) _) fun r => ?_
  refine IsDeaf.bind (IsDeaf.need (fun _ => rfl) _) fun p => ?_
  refine IsDeaf.bind (IsDeaf.require _ _) fun _ => ?_
  refine IsDeaf.bind (IsDeaf.require _ _) fun _ => ?_
  refine IsDeaf.read_bind (fun s => s.impactsOf_uncommented id) (fun is => ?_) fun is => ?_
  · simp only [openCount_uncommented, notifyDecision_uncommented]
  · refine IsDeaf.bind (IsDeaf.require _ _) fun _ => ?_
    refine IsDeaf.bind (IsDeaf.query fun _ => rfl) fun drafts => ?_
    refine IsDeaf.bind (IsDeaf.composes.mapM fun d => ?_) fun promotions => ?_
    · exact IsDeaf.bind (IsDeaf.need (fun _ => rfl) _) fun f => IsDeaf.pure _
    · refine IsDeaf.bind (IsDeaf.query fun s => s.affectedBy_uncommented id) fun stabilize => ?_
      refine IsDeaf.bind IsDeaf.now fun t => ?_
      refine IsDeaf.bind (isDeaf_storeAndCommit _ _) fun snapshot => ?_
      exact IsDeaf.bind (isDeaf_notifyDecision _ _ rfl) fun _ => IsDeaf.pure _

theorem isDeaf_rebuildGraph (project : String) : IsDeaf (rebuildGraph project) :=
  IsDeaf.bind (IsDeaf.read fun _ => rfl) fun _ =>
    IsDeaf.bind (IsDeaf.write (Store.overlooks_replaceGraph _ _)) fun _ => IsDeaf.pure _

theorem isDeaf_approveAndRebuild (setup : Setup) (id user : String) :
    IsDeaf (approveAndRebuild setup id user) := by
  refine IsDeaf.bind (IsDeaf.need (fun _ => rfl) _) fun r => ?_
  refine IsDeaf.bind (isDeaf_approveRequest setup id user) fun outcome => ?_
  exact IsDeaf.bind (isDeaf_rebuildGraph _) fun _ => IsDeaf.pure _

theorem isDeaf_rejectRequest (id user : String) : IsDeaf (rejectRequest id user) := by
  refine IsDeaf.bind (IsDeaf.need (fun _ => rfl) _) fun r => ?_
  refine IsDeaf.bind (IsDeaf.need (fun _ => rfl) _) fun p => ?_
  refine IsDeaf.bind (IsDeaf.require _ _) fun _ => ?_
  refine IsDeaf.bind (IsDeaf.require _ _) fun _ => ?_
  refine IsDeaf.read_bind (fun s => s.impactsOf_uncommented id) (fun is => ?_) fun is => ?_
  · simp only [notifyDecision_uncommented]
  · refine IsDeaf.bind IsDeaf.now fun t => ?_
    refine IsDeaf.bind (IsDeaf.write (Store.overlooks_commitRejection _ _)) fun _ => ?_
    exact isDeaf_notifyDecision _ _ rfl

theorem isDeaf_indexProject (setup : Setup) (project : String) :
    IsDeaf (indexProject setup project) := by
  refine IsDeaf.bind (IsDeaf.need (fun _ => rfl) _) fun p => ?_
  refine IsDeaf.bind (IsDeaf.read fun _ => rfl) fun files => ?_
  refine IsDeaf.get_bind (fun w => ?_) fun _ => rfl
  have hset (id : String) (symbols : Option ParsedFile) :
      IsDeaf (write (·.setSymbols id symbols)) :=
    IsDeaf.write (Store.overlooks_setSymbols id symbols)
  refine IsDeaf.bind (IsDeaf.composes.forM fun x => hset _ _) fun _ => ?_
  refine IsDeaf.bind (IsDeaf.composes.forM fun f => hset _ _) fun _ => ?_
  refine IsDeaf.bind (isDeaf_rebuildGraph project) fun graph => ?_
  exact IsDeaf.bind (IsDeaf.publish _ _ rfl) fun _ => IsDeaf.pure _

theorem isDeaf_loadDirectory (setup : Setup) (project : String) (tree : FileTree)
    (owner : String → Option String) : IsDeaf (loadDirectory setup project tree owner) := by
  refine IsDeaf.bind (IsDeaf.composes.forM fun f => ?_) fun _ => IsDeaf.pure _
  refine IsDeaf.bind (IsDeaf.store _) fun _ => ?_
  refine IsDeaf.bind IsDeaf.freshId fun id => ?_
  exact IsDeaf.bind (IsDeaf.writeWith (Store.overlooks_upsertFile _)) fun _ => IsDeaf.pure _

/-- Entering a row has nothing to do with comments. -/
theorem overlooks_write (row : Row) : Store.Overlooks row.write := by
  cases row with
  | project p => exact Store.overlooks_insertProject p
  | component c => exact Store.overlooks_insertComponent c
  | componentStatus ids status => exact fun _ => rfl
  | contributor c => exact Store.overlooks_addContributor c
  | file f =>
    intro s
    rw [Row.write, Row.write, Store.overlooks_upsertFile f s]
    cases s.upsertFile f <;> rfl
  | draft d => exact Store.overlooks_insertDraft d
  | edge project e => exact Store.overlooks_upsertEdge project e

/-- Whether an action has a language model comment on something. -/
def Action.isEnrichment : Action → Bool
  | enrich .. => true
  | _ => false

theorem Action.isDeaf (setup : Setup) {a : Action} (h : a.isEnrichment = false) :
    IsDeaf (a.operation setup) := by
  cases a with
  | enter row => exact IsDeaf.write (overlooks_write row)
  | objects change => exact IsDeaf.store change
  | create => exact isDeaf_createRequest _ _ _ _ _ _
  | submit request user => exact isDeaf_submitRequest request user
  | analyze request => exact isDeaf_analyzeRequest setup request
  | enrich => cases h
  | acknowledge impact user => exact isDeaf_acknowledgeImpact impact user
  | dismiss impact user => exact isDeaf_dismissImpact impact user
  | reEvaluate request => exact isDeaf_reEvaluate request
  | sweep time threshold => exact isDeaf_sweep time threshold
  | autoconfirm => exact IsDeaf.bind IsDeaf.now fun time => isDeaf_sweep time _
  | approve request user => exact isDeaf_approveRequest setup request user
  | approveAndRebuild request user => exact isDeaf_approveAndRebuild setup request user
  | reject request user => exact isDeaf_rejectRequest request user
  | index project => exact isDeaf_indexProject setup project
  | load project tree owner => exact isDeaf_loadDirectory setup project tree owner

/-! ## The language model itself -/

section Enrichment

variable {w : World}

theorem World.unassisted_publish (user subject : String) {notice : Notice}
    (h : notice.isAssistance = true) :
    World.unassisted { w with events := w.events ++ [⟨user, notice, subject⟩] } = w.unassisted := by
  let e : Event := ⟨user, notice, subject⟩
  have hevents : (w.events ++ [e]).filter (!·.notice.isAssistance) =
      w.events.filter (!·.notice.isAssistance) := by
    rw [List.filter_append, List.filter_singleton, h]
    exact List.append_nil _
  exact congrArg (fun events => { w.unassisted with events }) hevents

theorem World.unassisted_annotate (h : w.store.damaged = []) (id : String) (comment : Json) :
    World.unassisted { w with store := w.store.annotate id comment } = w.unassisted :=
  congrArg (fun store => { w.unassisted with store }) (Store.uncommented_annotate h id comment)

/-- Whatever a language model is asked and says, the world is the same without that. -/
theorem enrichRequest_unassisted (h : w.store.damaged = []) (setup : Setup)
    (job : EnrichmentJob) :
    Yields (enrichRequest setup job) w (fun v => v.unassisted = w.unassisted)
      fun _ v => v.unassisted = w.unassisted := by
  rw [enrichRequest]
  split
  · rfl
  · dsimp only
    split
    · exact World.unassisted_publish _ _ rfl
    · refine Yields.read (fun _ => rfl) fun is _ => ?_
      refine Yields.bind (Yields.forM (I := fun v => v.unassisted = w.unassisted) rfl
        fun i _ v hv => ?_) fun _ v hv => ?_
      · have hdamaged : v.store.damaged = [] :=
          (congrArg (fun u : World => u.store.damaged) hv).trans h
        refine Yields.read (fun _ => hv) fun files _ => Yields.write_last hv fun s hs => ?_
        cases hs
        exact (World.unassisted_annotate hdamaged _ _).trans hv
      · exact (World.unassisted_publish _ _ rfl).trans hv

theorem step_of_isEnrichment {a : Action} (ha : a.isEnrichment = true) (h : w.store.Intact)
    (setup : Setup) : (step setup w a).unassisted = w.unassisted := by
  cases a with
  | enrich assistant job =>
    exact (enrichRequest_unassisted h.readable { setup with assistant } job).world
      (fun _ _ _ hv => hv) fun _ _ _ hv => hv
  | _ => cases ha

end Enrichment

/-! ## Runs -/

/-- What the callers are told in a run, each with what was called. -/
def answers (setup : Setup) : World → List Action → List (Σ a : Action, Except Failure a.Answer)
  | _, [] => []
  | w, a :: actions => ⟨a, (exec (a.operation setup) w).1⟩ :: answers setup (step setup w a) actions

section Runs

variable {setup : Setup} {w : World}

theorem step_unassisted {a : Action} (h : a.isEnrichment = false) :
    step setup w.unassisted a = (step setup w a).unassisted := by
  rw [step, Action.isDeaf setup h]
  rfl

/-- A run without what language models did is the run without asking them: it ends the same way,
and everybody else is told the same. -/
theorem run_unassisted (setup : Setup) (h : w.store.Intact) (actions : List Action) :
    (run setup w actions).unassisted =
        run setup w.unassisted (actions.filter (!·.isEnrichment)) ∧
      (answers setup w actions).filter (!·.1.isEnrichment) =
        answers setup w.unassisted (actions.filter (!·.isEnrichment)) := by
  induction actions generalizing w with
  | nil => exact ⟨rfl, rfl⟩
  | cons a actions ih =>
    obtain ⟨hrun, hanswers⟩ := ih ((grows_step setup w a).intact h)
    rw [answers]
    cases ha : a.isEnrichment with
    | true =>
      rw [step_of_isEnrichment ha h] at hrun hanswers
      rw [List.filter_cons_of_neg (by simp [ha]), List.filter_cons_of_neg (by simp [ha])]
      exact ⟨hrun, hanswers⟩
    | false =>
      have hanswer : (exec (a.operation setup) w.unassisted).1 = (exec (a.operation setup) w).1 :=
        congrArg (·.1) (Action.isDeaf setup ha w)
      rw [← step_unassisted ha] at hrun hanswers
      rw [List.filter_cons_of_pos (by simp [ha]), List.filter_cons_of_pos (by simp [ha]), answers,
        hanswer]
      exact ⟨hrun, congrArg _ hanswers⟩

section Client

variable {client : Option Assistant} (hclient : client.isSome = setup.assistant.isSome)
include hclient

/-- Actions depend on whether there is a language model, not on which. -/
theorem Action.operation_eq_of_client (a : Action) :
    a.operation { setup with assistant := client } = a.operation setup := by
  obtain ⟨grammar, settings, assistant⟩ := setup
  cases a with
  | analyze request =>
    cases assistant with
    | none =>
      cases client with
      | none => rfl
      | some other => cases hclient
    | some known =>
      cases client with
      | none => cases hclient
      | some other => rfl
  | _ => rfl

theorem step_eq_of_client : step { setup with assistant := client } = step setup := by
  funext w a
  rw [step, step, Action.operation_eq_of_client hclient]

theorem answers_eq_of_client (actions : List Action) :
    answers { setup with assistant := client } w actions = answers setup w actions := by
  induction actions generalizing w with
  | nil => rfl
  | cons a actions ih =>
    rw [answers, answers, step_eq_of_client hclient, Action.operation_eq_of_client hclient, ih]

end Client

/-- Two worlds differ at most in what language models did. -/
structure World.AgreesApart (v w : World) : Prop where
  projects : v.store.projects = w.store.projects
  components : v.store.components = w.store.components
  contributors : v.store.contributors = w.store.contributors
  files : v.store.files = w.store.files
  drafts : v.store.drafts = w.store.drafts
  edges : v.store.edges = w.store.edges
  external : v.store.external = w.store.external
  requests : v.store.requests = w.store.requests
  /-- The impacts are the same but for what is said about them. -/
  impacts : v.store.impacts.map (·.uncommented) = w.store.impacts.map (·.uncommented)
  snapshots : v.store.snapshots = w.store.snapshots
  snapshotFiles : v.store.snapshotFiles = w.store.snapshotFiles
  objects : v.objects = w.objects
  /-- The same events are published in the same order, but for those about language models. -/
  events : v.events.filter (!·.notice.isAssistance) = w.events.filter (!·.notice.isAssistance)

theorem World.AgreesApart.of_unassisted {v w : World} (h : v.unassisted = w.unassisted) :
    v.AgreesApart w where
  projects := congrArg (·.store.projects) h
  components := congrArg (·.store.components) h
  contributors := congrArg (·.store.contributors) h
  files := congrArg (·.store.files) h
  drafts := congrArg (·.store.drafts) h
  edges := congrArg (·.store.edges) h
  external := congrArg (·.store.external) h
  requests := congrArg (·.store.requests) h
  impacts := congrArg (·.store.impacts) h
  snapshots := congrArg (·.store.snapshots) h
  snapshotFiles := congrArg (·.store.snapshotFiles) h
  objects := congrArg (·.objects) h
  events := congrArg (·.events) h

/-- Two runs that differ only in where language models are asked, what about and what they say, give
everybody else the same answers and end in worlds that differ at most in what the language models
did. -/
theorem runs_agreesApart (setup : Setup) (h : w.store.Intact) {client : Option Assistant}
    (hclient : client.isSome = setup.assistant.isSome) {actions others : List Action}
    (hsame : actions.filter (!·.isEnrichment) = others.filter (!·.isEnrichment)) :
    (answers setup w actions).filter (!·.1.isEnrichment) =
        (answers { setup with assistant := client } w others).filter (!·.1.isEnrichment) ∧
      (run setup w actions).AgreesApart (run { setup with assistant := client } w others) := by
  obtain ⟨hrun, hanswers⟩ := run_unassisted setup h actions
  obtain ⟨hrun', hanswers'⟩ := run_unassisted setup h others
  have hends : run { setup with assistant := client } w others = run setup w others := by
    rw [run, run, step_eq_of_client hclient]
  rw [hends, answers_eq_of_client hclient, hanswers, hanswers', hsame]
  refine ⟨rfl, .of_unassisted ?_⟩
  rw [hrun, hrun', hsame]

end Runs

/-- A language model that names one place in a file of the other component. -/
def sampleAssistant : Assistant :=
  .canned (some "[\x7b\"file\": \"ui/cart\", \"line\": 1, \"reason\": \"renamed\"\x7d]")

/-- What it is asked about the request of the small project. -/
def sampleJob : EnrichmentJob where
  change := sampleRequest.id
  author := "ana"
  diff := ""
  affectedFiles := []

/-- The model is asked twice, and fails the second time. -/
def sampleAsked : List Action :=
  [.analyze sampleRequest.id, .enrich (some sampleAssistant) sampleJob, .dismiss "m1" "udo",
    .enrich (some (.canned none)) sampleJob, .approve sampleRequest.id "olga"]

/-- Nobody is asked until all is decided, and then the model fails. -/
def sampleUnasked : List Action :=
  [.analyze sampleRequest.id, .dismiss "m1" "udo", .approve sampleRequest.id "olga",
    .enrich (some (.canned none)) sampleJob]

/-- The first run leaves a comment and the second none; that is all. -/
theorem sample_runs_agree :
    sampleNoticed.store.Intact ∧
    (some (Assistant.canned none)).isSome = (some sampleAssistant).isSome ∧
    sampleAsked.filter (!·.isEnrichment) = sampleUnasked.filter (!·.isEnrichment) ∧
    (run { sampleSetup with assistant := some sampleAssistant } sampleNoticed
      sampleAsked).store.impacts.map (·.comment.isSome) = [true] ∧
    (run { sampleSetup with assistant := some (.canned none) } sampleNoticed
      sampleUnasked).store.impacts.map (·.comment.isSome) = [false] ∧
    (answers { sampleSetup with assistant := some sampleAssistant } sampleNoticed
        sampleAsked).filter (!·.1.isEnrichment) =
      (answers { sampleSetup with assistant := some (.canned none) } sampleNoticed
        sampleUnasked).filter (!·.1.isEnrichment) ∧
    (run { sampleSetup with assistant := some sampleAssistant } sampleNoticed
      sampleAsked).AgreesApart
        (run { sampleSetup with assistant := some (.canned none) } sampleNoticed sampleUnasked) := by
  have hsame : sampleAsked.filter (!·.isEnrichment) = sampleUnasked.filter (!·.isEnrichment) := rfl
  refine ⟨intact_sampleNoticed, rfl, hsame, by decide +kernel, by decide +kernel, ?_⟩
  exact runs_agreesApart { sampleSetup with assistant := some sampleAssistant }
    intact_sampleNoticed rfl hsame

end ChangeImpact
