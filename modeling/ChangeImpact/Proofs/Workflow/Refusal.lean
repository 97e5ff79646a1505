import ChangeImpact.Proofs.Workflow.Analysed
import ChangeImpact.Proofs.Workflow.Decided

/-!
# Refused actions

A user whose action on a change request is refused, or fails half-way, finds the
tables, the objects and the published events exactly as they were. Only an approval
stores objects before it writes the tables. It can take them back when objects can be
removed and the keys of the new revisions were free.
-/

namespace ChangeImpact

open Operation

namespace Action

/-- The actions that users take on change requests and impacts. -/
def isGuarded : Action → Bool
  | create .. | submit .. | analyze _ | acknowledge .. | dismiss .. => true
  | approve .. | approveAndRebuild .. | reject .. => true
  | _ => false

/-- What the action stores as objects can be taken back again. -/
def TakesBack (w : World) : Action → Prop
  | approve request _ | approveAndRebuild request _ => w.TakesBack request
  | _ => True

end Action

theorem World.Restored.untouched {clean : Prop} {w w' : World} (h : w.Restored clean w')
    (hc : clean) : w.Untouched w' :=
  ⟨h.store, h.objects hc, h.events⟩

/-- In an intact store a guarded action that fails leaves the world untouched. -/
theorem untouched_of_error {setup : Setup} {w w' : World} (hw : w.store.Intact) {a : Action}
    (ha : a.isGuarded = true) (hback : a.TakesBack w) {e : Failure}
    (he : exec (a.operation setup) w = (.error e, w')) : w.Untouched w' := by
  cases a with
  | create project component author title description submitted =>
    exact (createRequest_decides w project component author title description submitted).of_error he
  | submit request user => exact (submitRequest_decides w request user).of_error he
  | analyze request =>
    exact (analyzeRequest_yields setup request hw.requestIds (fun _ hv => hv)
      (Or.inl hw)).of_error he
  | acknowledge impact user => exact (acknowledgeImpact_decides hw impact user).of_error he
  | dismiss impact user => exact (dismissImpact_decides hw impact user).of_error he
  | approve request user =>
    exact ((approveRequest_yields setup request user).of_error he).untouched hback
  | approveAndRebuild request user =>
    exact ((approveAndRebuild_yields hw setup request user).of_error he).untouched hback
  | reject request user => exact (rejectRequest_decides w request user).of_error he
  | _ => cases ha

/-- In every reachable world an action of a user that fails changes neither the tables nor
the objects nor the events. -/
theorem reachable_refused_unchanged {setup : Setup} {w w' : World} (hw : Reachable setup w)
    {a : Action} (ha : a.isGuarded = true) (hback : a.TakesBack w) {e : Failure}
    (he : exec (a.operation setup) w = (.error e, w')) :
    w'.store = w.store ∧ w'.objects = w.objects ∧ w'.events = w.events := by
  have h := untouched_of_error hw.intact ha hback he
  exact ⟨h.store, h.objects, h.events⟩

/-- The small project after the analysis, while no object can be stored. -/
def sampleRefusing : World := run sampleSetup sampleWorld
  [.analyze sampleRequest.id,
    .objects fun o => .ok { entries := o.entries, refusesPut := fun _ => true }]

/-- The owner approves then, and nothing changes. -/
theorem sample_refused_unchanged :
    Reachable sampleSetup sampleRefusing ∧
    (Action.approve sampleRequest.id "olga").TakesBack sampleRefusing ∧
    ∃ e w', exec (approveRequest sampleSetup sampleRequest.id "olga") sampleRefusing =
        (.error e, w') ∧
      w'.store = sampleRefusing.store ∧ w'.objects = sampleRefusing.objects ∧
      w'.events = sampleRefusing.events := by
  have hreach : Reachable sampleSetup sampleRefusing := reachable_sampleWorld.run _
  have hback : (Action.approve sampleRequest.id "olga").TakesBack sampleRefusing :=
    ⟨fun _ => rfl, by decide +kernel⟩
  have hfails : (exec (approveRequest sampleSetup sampleRequest.id "olga")
      sampleRefusing).1.toOption = none := by
    decide +kernel
  cases he : exec (approveRequest sampleSetup sampleRequest.id "olga") sampleRefusing with
  | mk result w' =>
    cases result with
    | ok outcome =>
      rw [he] at hfails
      cases hfails
    | error e =>
      exact ⟨hreach, hback, e, w', rfl,
        reachable_refused_unchanged (a := .approve sampleRequest.id "olga") hreach rfl hback he⟩

end ChangeImpact
