import ChangeImpact.Proofs.Operation
import ChangeImpact.Proofs.Store.Frames
import ChangeImpact.Workflow.Aging
import ChangeImpact.Workflow.Analysis
import ChangeImpact.Workflow.Approval

/-!
# Runs

Everything that can happen to a world: rows are entered from outside, the objects
change in any way, and users and the background call the actions of the workflow
with any arguments. A run is a sequence of these, and a world is reachable when a
run leads to it from one with empty tables. The tables of a reachable world are
intact.
-/

namespace ChangeImpact

open Operation

/-- What is entered into the tables from outside. -/
inductive Row where
  | project (p : Project)
  | component (c : Component)
  | componentStatus (ids : List String) (status : ComponentStatus)
  | contributor (c : Contributor)
  | file (f : ProjectFile)
  | draft (d : Draft)
  | edge (project : String) (e : DependencyEdge)

/-- Enter it. -/
def Row.write : Row → Store → Except Failure Store
  | project p, s => s.insertProject p
  | component c, s => s.insertComponent c
  | componentStatus ids status, s => .ok (s.setComponentStatus ids status)
  | contributor c, s => s.addContributor c
  | file f, s => (s.upsertFile f).map (·.2)
  | draft d, s => s.insertDraft d
  | edge owner e, s => s.upsertEdge owner e

/-- What can happen. -/
inductive Action where
  /-- Something is entered from outside. -/
  | enter (row : Row)
  /-- The object store does something of its own. -/
  | objects (change : Objects → Except Failure Objects)
  | create (project component author title description : String) (submitted : Bool)
  | submit (request user : String)
  | analyze (request : String)
  /-- A language model, if there is one, comments on the impacts. -/
  | enrich (assistant : Option Assistant) (job : EnrichmentJob)
  | acknowledge (impact user : String)
  | dismiss (impact user : String)
  | reEvaluate (request : String)
  | sweep (time : Instant) (threshold : Int)
  | autoconfirm
  | approve (request user : String)
  | approveAndRebuild (request user : String)
  | reject (request user : String)
  | index (project : String)
  | load (project : String) (tree : FileTree) (owner : String → Option String)

namespace Action

/-- What the caller is told. -/
def Answer : Action → Type
  | enter _ | objects _ | reject .. => Unit
  | create .. | submit .. => ChangeRequest
  | analyze _ => ImpactReport
  | enrich .. | load .. => Nat
  | acknowledge .. | dismiss .. | reEvaluate _ => ChangeStatus
  | sweep .. | autoconfirm => SweepReport
  | approve .. | approveAndRebuild .. => ApprovalOutcome
  | index _ => IndexReport

/-- The operation behind an action. -/
def operation (setup : Setup) : (a : Action) → Operation a.Answer
  | enter row => write row.write
  | objects change => store change
  | create project component author title description submitted =>
    createRequest project component author title description submitted
  | submit request user => submitRequest request user
  | analyze request => analyzeRequest setup request
  | enrich assistant job => enrichRequest { setup with assistant } job
  | acknowledge impact user => acknowledgeImpact impact user
  | dismiss impact user => dismissImpact impact user
  | reEvaluate request => ChangeImpact.reEvaluate request
  | sweep time threshold => ChangeImpact.sweep time threshold
  | autoconfirm => ChangeImpact.autoconfirm setup.settings
  | approve request user => approveRequest setup request user
  | approveAndRebuild request user => ChangeImpact.approveAndRebuild setup request user
  | reject request user => rejectRequest request user
  | index project => indexProject setup project
  | load project tree owner => loadDirectory setup project tree owner

end Action

/-- The world after an action, whether it succeeds or fails. -/
def step (setup : Setup) (w : World) (a : Action) : World := (exec (a.operation setup) w).2

theorem step_eq_of_exec {setup : Setup} {w v : World} {a : Action} {result : Except Failure a.Answer}
    (he : exec (a.operation setup) w = (result, v)) : step setup w a = v := by
  rw [step, he]

/-- The world after a sequence of actions. -/
def run (setup : Setup) (w : World) (actions : List Action) : World :=
  actions.foldl (step setup) w

/-- The worlds that a run can lead to from empty tables. -/
inductive Reachable (setup : Setup) : World → Prop where
  | start {w : World} (tables : w.store = {}) (events : w.events = []) : Reachable setup w
  | step {w : World} (h : Reachable setup w) (a : Action) : Reachable setup (step setup w a)

theorem Reachable.run {setup : Setup} {w : World} (h : Reachable setup w) (actions : List Action) :
    Reachable setup (run setup w actions) := by
  induction actions generalizing w with
  | nil => exact h
  | cons a actions ih => exact ih (h.step a)

/-! ## Actions aside from change requests -/

open Store (Aside Grows)

theorem aside_write (row : Row) : Keeps Aside (write row.write) := by
  refine Keeps.write fun s t h => ?_
  cases row with
  | project p => exact Store.aside_insertProject h
  | component c => exact Store.aside_insertComponent h
  | componentStatus ids status =>
    cases h
    exact Store.aside_setComponentStatus s ids status
  | contributor c => exact Store.aside_addContributor h
  | file f =>
    cases hf : s.upsertFile f with
    | error e =>
      rw [Row.write, hf] at h
      cases h
    | ok found =>
      rw [Row.write, hf] at h
      cases h
      exact Store.aside_upsertFile hf
  | draft d => exact Store.aside_insertDraft h
  | edge project e => exact Store.aside_upsertEdge h

theorem aside_rebuildGraph (project : String) : Keeps Aside (rebuildGraph project) :=
  Keeps.bind (Keeps.read _) fun _ =>
    Keeps.bind (Keeps.write fun _ _ h => Store.aside_replaceGraph h) fun _ => Keeps.pure _

theorem aside_indexProject (setup : Setup) (project : String) :
    Keeps Aside (indexProject setup project) := by
  refine Keeps.bind (Keeps.need _ _) fun p => ?_
  refine Keeps.bind (Keeps.read _) fun files => ?_
  refine Keeps.bind Keeps.get fun w => ?_
  have hset (id : String) (symbols : Option ParsedFile) :
      Keeps Aside (write (·.setSymbols id symbols)) :=
    Keeps.write fun _ _ h => Store.aside_setSymbols h
  refine Keeps.bind (Keeps.forM fun x => hset _ _) fun _ => ?_
  refine Keeps.bind (Keeps.forM fun x => hset _ _) fun _ => ?_
  refine Keeps.bind (aside_rebuildGraph project) fun graph => ?_
  exact Keeps.bind (Keeps.publish _ _ _) fun _ => Keeps.pure _

theorem aside_loadDirectory (setup : Setup) (project : String) (tree : FileTree)
    (owner : String → Option String) : Keeps Aside (loadDirectory setup project tree owner) := by
  refine Keeps.bind (Keeps.forM fun f => ?_) fun _ => Keeps.pure _
  refine Keeps.bind (Keeps.store _) fun _ => ?_
  refine Keeps.bind Keeps.freshId fun id => ?_
  exact Keeps.bind (Keeps.writeWith fun _ _ _ h => Store.aside_upsertFile h) fun _ => Keeps.pure _

/-! ## Actions on change requests -/

theorem grows_createRequest (project component author title description : String)
    (submitted : Bool) :
    Keeps Grows (createRequest project component author title description submitted) := by
  refine Keeps.bind (Keeps.need _ _) fun c => ?_
  refine Keeps.bind Keeps.now fun t => ?_
  refine Keeps.bind Keeps.freshId fun id => ?_
  exact Keeps.bind (Keeps.write fun _ _ h => Store.grows_insertRequest h) fun _ => Keeps.pure _

theorem grows_submitRequest (id user : String) : Keeps Grows (submitRequest id user) := by
  refine Keeps.bind (Keeps.need _ _) fun r => ?_
  refine Keeps.bind (Keeps.require _ _) fun _ => ?_
  refine Keeps.bind (Keeps.require _ _) fun _ => ?_
  refine Keeps.bind Keeps.now fun t => ?_
  exact Keeps.bind (Keeps.write fun _ _ h => Store.grows_setStatus h) fun _ => Keeps.pure _

section Rel

variable {r : Store → Store → Prop} [IsPreorder Store r]

/-- Looking at a request again can only set its status. -/
theorem keeps_reEvaluate
    (hset : ∀ s t id status time, Store.setStatus id status time s = .ok t → r s t) (id : String) :
    Keeps r (reEvaluate id) := by
  refine Keeps.bind (Keeps.need _ _) fun q => ?_
  split
  · exact Keeps.pure _
  · refine Keeps.bind (Keeps.read _) fun is => ?_
    split
    · exact Keeps.pure _
    · refine Keeps.bind Keeps.now fun t => ?_
      refine Keeps.bind (Keeps.write fun s t h => hset s t _ _ _ h) fun _ => ?_
      exact Keeps.bind (Keeps.publish _ _ _) fun _ => Keeps.pure _

/-- A sweep acknowledges impacts for their age and looks at requests again. -/
theorem keeps_sweep (hack : ∀ s id time, r s (Store.acknowledge id time true s).2)
    (hlook : ∀ id, Keeps r (reEvaluate id)) (time : Instant) (threshold : Int) :
    Keeps r (sweep time threshold) := by
  rw [sweep]
  split
  · exact Keeps.fail _
  · refine Keeps.bind (Keeps.read _) fun found => ?_
    refine Keeps.bind (Keeps.filterM fun x => Keeps.writeWith fun s y t h => ?_) fun confirmed => ?_
    · cases h
      exact hack s _ _
    · refine Keeps.bind (Keeps.forM fun id => ?_) fun _ => Keeps.pure _
      exact Keeps.bind (hlook id) fun _ => Keeps.pure _

/-- A language model writes comments. -/
theorem keeps_enrichRequest (hann : ∀ s id comment, r s (Store.annotate id comment s))
    (setup : Setup) (job : EnrichmentJob) : Keeps r (enrichRequest setup job) := by
  rw [enrichRequest]
  split
  · exact Keeps.pure _
  · dsimp only
    split
    · exact Keeps.bind (Keeps.publish _ _ _) fun _ => Keeps.pure _
    · refine Keeps.bind (Keeps.read _) fun is => ?_
      refine Keeps.bind (Keeps.forM fun i => ?_) fun _ => ?_
      · refine Keeps.bind (Keeps.read _) fun files => Keeps.write fun s t h => ?_
        cases h
        exact hann s _ _
      · exact Keeps.bind (Keeps.publish _ _ _) fun _ => Keeps.pure _

end Rel

theorem grows_reEvaluate (id : String) : Keeps Grows (reEvaluate id) :=
  keeps_reEvaluate (fun _ _ _ _ _ h => Store.grows_setStatus h) id

private theorem grows_checkResolvable (i : Impact) (user : String) (activity : Activity) :
    Keeps Grows (checkResolvable i user activity) := by
  refine Keeps.bind (Keeps.require _ _) fun _ => ?_
  refine Keeps.bind (Keeps.require _ _) fun _ => ?_
  exact Keeps.bind (Keeps.need _ _) fun r => Keeps.require _ _

theorem grows_acknowledgeImpact (id user : String) : Keeps Grows (acknowledgeImpact id user) := by
  refine Keeps.bind (Keeps.need _ _) fun i => ?_
  refine Keeps.bind (grows_checkResolvable _ _ _) fun _ => ?_
  refine Keeps.bind Keeps.now fun t => ?_
  refine Keeps.bind (Keeps.writeWith fun s x t h => ?_) fun done => ?_
  · cases h
    exact Store.grows_acknowledge s _ _ _
  · exact Keeps.bind (Keeps.require _ _) fun _ => grows_reEvaluate _

theorem grows_dismissImpact (id user : String) : Keeps Grows (dismissImpact id user) := by
  refine Keeps.bind (Keeps.need _ _) fun i => ?_
  refine Keeps.bind (grows_checkResolvable _ _ _) fun _ => ?_
  refine Keeps.bind (Keeps.require _ _) fun _ => ?_
  refine Keeps.bind Keeps.now fun t => ?_
  refine Keeps.bind (Keeps.writeWith fun s x t h => ?_) fun done => ?_
  · cases h
    exact Store.grows_dismiss s _ _
  · exact Keeps.bind (Keeps.require _ _) fun _ => grows_reEvaluate _

theorem grows_sweep (time : Instant) (threshold : Int) : Keeps Grows (sweep time threshold) :=
  keeps_sweep (fun s _ _ => Store.grows_acknowledge s _ _ _) grows_reEvaluate time threshold

theorem grows_compareDrafts (grammar : Grammar) (drafts : List Draft) :
    Keeps Grows (compareDrafts grammar drafts) :=
  Keeps.filterMapM fun _ =>
    Keeps.bind (Keeps.read _) fun _ => Keeps.bind Keeps.get fun _ => Keeps.pure _

theorem grows_analyzeRequest (setup : Setup) (id : String) :
    Keeps Grows (analyzeRequest setup id) := by
  refine Keeps.bind (Keeps.need _ _) fun r => ?_
  refine Keeps.bind (Keeps.require _ _) fun _ => ?_
  refine Keeps.bind (Keeps.query _) fun drafts => ?_
  refine Keeps.bind (grows_compareDrafts _ _) fun drafted => ?_
  refine Keeps.bind (Keeps.read _) fun files => ?_
  refine Keeps.bind (Keeps.query _) fun edges => ?_
  refine Keeps.bind (Keeps.query _) fun contributors => ?_
  refine Keeps.bind Keeps.now fun t => ?_
  refine Keeps.bind (Keeps.mapM fun x => ?_) fun impacts => ?_
  · exact Keeps.bind Keeps.freshId fun _ => Keeps.pure _
  · refine Keeps.bind Keeps.now fun t => ?_
    refine Keeps.bind (Keeps.writeWith fun s x t h => Store.grows_commitAnalysis h) fun done => ?_
    have htail (report : ChangeStatus → ImpactReport) : Keeps Grows (do
        (Ordered.ofList (impacts.map (·.contributor))).forM fun user =>
          publish user .parserComplete r.id
        publish r.author .parserComplete r.id
        let status ← reEvaluate r.id
        pure (report status)) := by
      refine Keeps.bind (Keeps.forM fun _ => Keeps.publish _ _ _) fun _ => ?_
      refine Keeps.bind (Keeps.publish _ _ _) fun _ => ?_
      exact Keeps.bind (grows_reEvaluate _) fun _ => Keeps.pure _
    cases done with
    | false => exact Keeps.bind (Keeps.need _ _) fun _ => Keeps.bind (Keeps.fail _) fun _ => htail _
    | true => exact htail _

theorem grows_enrichRequest (setup : Setup) (job : EnrichmentJob) :
    Keeps Grows (enrichRequest setup job) :=
  keeps_enrichRequest Store.grows_annotate setup job

/-- What storing drafts and writing an approval does. -/
theorem exec_storeAndCommit (contents : List (String × Bytes)) (commit : ApprovalCommit)
    (w : World) :
    exec (storeAndCommit contents commit) w =
      match putAll contents w.objects with
      | (keys, some e, o) => (.error e, { w with objects := removeAll keys o })
      | (keys, none, o) =>
        match w.store.commitApproval commit (idOf w.issued) with
        | .ok s =>
          (.ok (idOf w.issued), { w with store := s, objects := o, issued := w.issued + 1 })
        | .error e =>
          (.error e, { w with objects := removeAll keys o, issued := w.issued + 1 }) := by
  rw [storeAndCommit, exec_bind, exec_get]
  dsimp only
  rcases putAll contents w.objects with ⟨keys, refusal, o⟩
  cases refusal with
  | some e => rfl
  | none =>
    dsimp only
    rw [exec_bind, exec_set]
    dsimp only
    rw [exec_bind, exec_freshId]
    dsimp only
    cases w.store.commitApproval commit (idOf w.issued) <;> rfl

private theorem grows_storeAndCommit (contents : List (String × Bytes)) (commit : ApprovalCommit) :
    Keeps Grows (storeAndCommit contents commit) := by
  intro w
  rw [exec_storeAndCommit]
  rcases putAll contents w.objects with ⟨keys, refusal, o⟩
  cases refusal with
  | some e => exact refl_of Grows w.store
  | none =>
    dsimp only
    cases hc : w.store.commitApproval commit (idOf w.issued) with
    | error e => exact refl_of Grows w.store
    | ok s => exact Store.grows_commitApproval hc

theorem grows_approveRequest (setup : Setup) (id user : String) :
    Keeps Grows (approveRequest setup id user) := by
  refine Keeps.bind (Keeps.need _ _) fun r => ?_
  refine Keeps.bind (Keeps.need _ _) fun p => ?_
  refine Keeps.bind (Keeps.require _ _) fun _ => ?_
  refine Keeps.bind (Keeps.require _ _) fun _ => ?_
  refine Keeps.bind (Keeps.read _) fun impacts => ?_
  refine Keeps.bind (Keeps.require _ _) fun _ => ?_
  refine Keeps.bind (Keeps.query _) fun drafts => ?_
  refine Keeps.bind (Keeps.mapM fun d => ?_) fun promotions => ?_
  · exact Keeps.bind (Keeps.need _ _) fun _ => Keeps.pure _
  · refine Keeps.bind (Keeps.query _) fun stabilize => ?_
    refine Keeps.bind Keeps.now fun t => ?_
    refine Keeps.bind (grows_storeAndCommit _ _) fun snapshot => ?_
    exact Keeps.bind (Keeps.forM fun _ => Keeps.publish _ _ _) fun _ => Keeps.pure _

theorem grows_approveAndRebuild (setup : Setup) (id user : String) :
    Keeps Grows (approveAndRebuild setup id user) := by
  refine Keeps.bind (Keeps.need _ _) fun r => ?_
  refine Keeps.bind (grows_approveRequest _ _ _) fun outcome => ?_
  exact Keeps.bind ((aside_rebuildGraph _).imp fun _ _ h => h.toGrows) fun _ => Keeps.pure _

theorem grows_rejectRequest (id user : String) : Keeps Grows (rejectRequest id user) := by
  refine Keeps.bind (Keeps.need _ _) fun r => ?_
  refine Keeps.bind (Keeps.need _ _) fun p => ?_
  refine Keeps.bind (Keeps.require _ _) fun _ => ?_
  refine Keeps.bind (Keeps.require _ _) fun _ => ?_
  refine Keeps.bind (Keeps.read _) fun impacts => ?_
  refine Keeps.bind Keeps.now fun t => ?_
  refine Keeps.bind (Keeps.write fun s t h => ?_) fun _ => ?_
  · cases h
    exact Store.grows_commitRejection s _ _ _
  · exact Keeps.forM fun _ => Keeps.publish _ _ _

/-- No action loses a project or breaks a constraint. -/
theorem grows_step (setup : Setup) (w : World) (a : Action) :
    Grows w.store (step setup w a).store := by
  have haside {α : Type} {o : Operation α} (h : Keeps Aside o) : Grows w.store (exec o w).2.store :=
    (h w).toGrows
  cases a with
  | enter row => exact haside (aside_write row)
  | objects change => exact haside (Keeps.store change)
  | create => exact grows_createRequest _ _ _ _ _ _ w
  | submit => exact grows_submitRequest _ _ w
  | analyze => exact grows_analyzeRequest _ _ w
  | enrich => exact grows_enrichRequest _ _ w
  | acknowledge => exact grows_acknowledgeImpact _ _ w
  | dismiss => exact grows_dismissImpact _ _ w
  | reEvaluate => exact grows_reEvaluate _ w
  | sweep => exact grows_sweep _ _ w
  | autoconfirm => exact Keeps.bind Keeps.now (fun t => grows_sweep t _) w
  | approve => exact grows_approveRequest _ _ _ w
  | approveAndRebuild => exact grows_approveAndRebuild _ _ _ w
  | reject => exact grows_rejectRequest _ _ w
  | index project => exact haside (aside_indexProject setup project)
  | load project tree owner => exact haside (aside_loadDirectory setup project tree owner)

/-- The tables of a reachable world are intact. -/
theorem Reachable.intact {setup : Setup} {w : World} (h : Reachable setup w) : w.store.Intact := by
  induction h with
  | start tables _ => exact tables ▸ Store.intact_empty
  | step _ a ih => exact (grows_step setup _ a).intact ih

/-! ## A small project -/

/-- A setup without syntax trees to speak of. -/
def sampleSetup : Setup where
  grammar _ _ := default

/-- A file of the core that exports a name. -/
def samplePrice : ProjectFile where
  id := "f1"
  project := "shop"
  component := some "core"
  path := "core/price"
  storageKey := "projects/shop/files/core/price"
  symbols := some
    { path := "core/price"
      language := "text"
      exports := [{ name := "total", kind := .function }] }

/-- A new content for it. -/
def sampleDraft : Draft where
  id := "d1"
  file := "f1"
  author := "ana"
  content := "new"
  createdAt := ⟨0⟩

/-- The request to commit it. -/
def sampleRequest : ChangeRequest where
  id := idOf 0
  project := "shop"
  component := "core"
  author := "ana"
  title := "Prices"
  createdAt := ⟨0⟩
  updatedAt := ⟨0⟩

/-- A project of two components with the drafted file and a submitted request. -/
def sampleWorld : World := run sampleSetup { clock := ⟨0⟩ }
  [.enter (.project { id := "shop", name := "Shop", owner := "olga", strictness := .soft }),
    .enter (.component { id := "core", project := "shop", name := "Core" }),
    .enter (.component { id := "ui", project := "shop", name := "UI" }),
    .enter (.contributor { component := "ui", user := "udo" }),
    .enter (.file samplePrice),
    .enter (.draft sampleDraft),
    .create "shop" "core" "ana" "Prices" "" true]

theorem reachable_sampleWorld : Reachable sampleSetup sampleWorld :=
  (Reachable.start rfl rfl).run _

theorem requests_sampleWorld : sampleWorld.store.requests = [sampleRequest] := by
  decide +kernel

end ChangeImpact
