import ChangeImpact.Proofs.Store.Parts
import ChangeImpact.Proofs.Workflow.Flags
import ChangeImpact.Proofs.Workflow.Promotion
import Mathlib.Data.List.Infix

/-!
# Projects are isolated

Many statements select rows by a component, a request or an author and not by a project. That
they stay within the project that an action is about rests on who owns what: as long as the
component of every file is one of the file's project, an analysis reaches components of the
request's project only, so a decision on the request releases no other ones. Then an action on
one project leaves all rows of the other projects as they are.
-/

namespace ChangeImpact

open Operation

namespace Store

/-- The component of each file is one of the file's project. -/
def Owned (s : Store) : Prop :=
  ∀ f ∈ s.files, ∀ c ∈ s.components, f.component = some c.id → c.project = f.project

instance (s : Store) : Decidable s.Owned :=
  inferInstanceAs (Decidable (∀ f ∈ s.files, ∀ c ∈ s.components,
    f.component = some c.id → c.project = f.project))

/-- Each impact is on a component of the project of its request. -/
def Separate (s : Store) : Prop :=
  ∀ i ∈ s.impacts, ∀ r ∈ s.requests, r.id = i.change →
    ∀ c ∈ s.components, c.id = i.component → c.project = r.project

/-- The project of a request. -/
def projectOf? (s : Store) (request : String) : Option String :=
  (s.requests.find? (·.id = request)).map (·.project)

/-- The project of the request of an impact. -/
def projectOfImpact? (s : Store) (impact : String) : Option String :=
  (s.impacts.find? (·.id = impact)).bind fun i => s.projectOf? i.change

end Store

namespace Action

/-- The actions that are about one project. -/
def isScoped : Action → Bool
  | create .. | submit .. | analyze _ | enrich .. | acknowledge .. | dismiss .. => true
  | approve .. | approveAndRebuild .. | reject .. | index _ => true
  | _ => false

/-- The project that an action is about, if what it names is there. -/
def project? (s : Store) : Action → Option String
  | create project .. | index project => some project
  | submit request _ | analyze request | reject request _ => s.projectOf? request
  | approve request _ | approveAndRebuild request _ => s.projectOf? request
  | enrich _ job => s.projectOf? job.change
  | acknowledge impact _ | dismiss impact _ => s.projectOfImpact? impact
  | _ => none

end Action

namespace Store

variable {s : Store} {q : String}

theorem projectOf?_eq (h : s.Consistent) {r : ChangeRequest} (hr : r ∈ s.requests) :
    s.projectOf? r.id = some r.project := by
  rw [projectOf?, h.requestIds.find?_eq_some_iff.mpr ⟨hr, rfl⟩, Option.map_some]

/-- A request that is not of a project is not owned by it. -/
theorem ownsRequest_of_projectOf? (h : s.Consistent) {request : String}
    (hq : s.projectOf? request ≠ some q) : s.ownsRequest q request = false := by
  refine owns_eq_false.mpr ?_
  rintro r hr rfl rfl
  exact hq (projectOf?_eq h hr)

theorem ownsRequest_of_projectOfImpact? (h : s.Consistent) {i : Impact} (hi : i ∈ s.impacts)
    (hq : s.projectOfImpact? i.id ≠ some q) : s.ownsRequest q i.change = false := by
  refine ownsRequest_of_projectOf? h fun heq => hq ?_
  rw [projectOfImpact?, h.impactIds.find?_eq_some_iff.mpr ⟨hi, rfl⟩, Option.bind_some, heq]

/-- A component with an impact of a request is in no other project. -/
theorem Separate.ownsComponent (h : s.Separate) {r : ChangeRequest} (hr : r ∈ s.requests)
    (hne : r.project ≠ q) {component : String} (hc : component ∈ s.affectedBy r.id) :
    s.ownsComponent q component = false := by
  obtain ⟨i, hi, hchange, rfl⟩ := mem_affectedBy.mp hc
  refine owns_eq_false.mpr fun k hk hid => ?_
  rw [h i hi r hr hchange.symm k hk hid]
  exact hne

end Store

/-! ## One action -/

section Step

variable {setup : Setup} {w w' : World} {r : ChangeRequest} {q : String}

section Analyzes

variable {found : Analysis} {report : ImpactReport}

/-- An analysis reaches components of the request's project. -/
theorem Analyzes.project_eq (h : Analyzes setup r found report w w') (howned : w.store.Owned)
    {k : Component} (hk : k ∈ w.store.components) (hreached : k.id ∈ report.affectedComponents) :
    k.project = r.project := by
  rw [h.reported, h.fits.affected] at hreached
  obtain ⟨f, hf, hproject, hcomponent⟩ := exists_file_of_reached hreached
  exact (howned f hf k hk hcomponent).trans hproject

theorem Analyzes.part (h : Analyzes setup r found report w w') (hw : w.store.Intact)
    (howned : w.store.Owned) (hne : r.project ≠ q) : w'.store.part q = w.store.part q := by
  obtain ⟨s, time, time', hcommit, hstore⟩ := h.committed
  have hrequest : w.store.ownsRequest q r.id = false :=
    Store.owns_of_ne hw.requestIds h.request hne
  have hanalysed : s.part q = w.store.part q := by
    refine Store.part_commitAnalysis hw hrequest (fun i hi => h.change_eq hi) ?_ hcommit
    intro c hc
    refine Store.owns_eq_false.mpr ?_
    rintro k hk rfl
    rw [h.project_eq howned hk (h.reported ▸ hc)]
    exact hne
  have hlast : s.ownsRequest q r.id = false := by
    rw [Store.ownsRequest_commitAnalysis hcommit]
    exact hrequest
  rw [hstore, Store.part_review (hw.commitAnalysis hcommit).readable hlast, hanalysed]

end Analyzes

/-- Comments go to the impacts of the request that was analysed. -/
theorem enrichRequest_part (h : w.store.Intact) (job : EnrichmentJob)
    (hq : w.store.projectOf? job.change ≠ some q) :
    Yields (enrichRequest setup job) w (fun v => v.store.part q = w.store.part q)
      fun _ v => v.store.part q = w.store.part q := by
  have hrequest := Store.ownsRequest_of_projectOf? h.toConsistent hq
  rw [enrichRequest]
  split
  · rfl
  dsimp only
  split
  · rfl
  refine Yields.read (fun _ => rfl) fun impacts himpacts => ?_
  -- Whatever was commented on so far, the listed impacts are not those of the other project.
  refine Yields.bind (Yields.forM (I := fun v => v.store.part q = w.store.part q ∧
    v.store.damaged = [] ∧ ∀ i ∈ impacts, ∀ j ∈ v.store.impacts, j.id = i.id →
      v.store.ownsRequest q j.change = false) ⟨rfl, h.readable, ?_⟩ ?_) fun _ v hv => hv.1
  · intro i hi j hj hid
    obtain ⟨hi, hchange⟩ := (Store.mem_impactsOf himpacts).mp hi
    rw [h.impactIds.eq_of_key_eq hj hi hid, hchange]
    exact hrequest
  · rintro i hi v ⟨hpart, hdamaged, hown⟩
    refine Yields.read (fun _ => hpart) fun files _ => Yields.write_last hpart fun s hs => ?_
    cases hs
    refine ⟨(Store.part_annotate hdamaged (hown i hi) _).trans hpart,
      Store.mend_of_readable (by exact hdamaged) _ _, fun i' hi' j hj hid => ?_⟩
    obtain ⟨k, hk, rfl⟩ := Store.mem_updateWhere.mp hj
    split at hid
    · rw [if_pos ‹_›]
      exact hown i' hi' k hk hid
    · rw [if_neg ‹_›]
      exact hown i' hi' k hk hid

/-- An impact is resolved, and its request is looked at again. -/
theorem Resolved.part {f : Instant → Impact → Impact} {id user : String}
    (h : Resolved f id user w w') (hw : w.store.Intact)
    (hchange : ∀ time i, (f time i).change = i.change)
    (hq : w.store.projectOfImpact? id ≠ some q) : w'.store.part q = w.store.part q := by
  obtain ⟨i, hi, rfl, -, -, -, ⟨time, time', hstore⟩, -⟩ := h
  have hrequest := Store.ownsRequest_of_projectOfImpact? hw.toConsistent hi hq
  have hresolved : (w.store.resolveImpact i.id (f time)).2.part q = w.store.part q := by
    refine Store.part_updateImpacts (hchange time) fun j hj hp => ?_
    have hid : j.id = i.id := of_decide_eq_true (Bool.and_eq_true_iff.mp hp).1
    rw [hw.impactIds.eq_of_key_eq hj hi hid]
    exact hrequest
  rw [hstore, Store.part_review (by exact hw.readable) (by exact hrequest), hresolved]

/-- The promoted drafts are of the project, and so are the released components. -/
theorem Promotes.part {pairs : List (ProjectFile × Draft)} (h : Promotes setup r pairs w w')
    (hw : w.store.Intact) (hs : w.store.Separate) (hr : r ∈ w.store.requests)
    (hne : r.project ≠ q) : w'.store.part q = w.store.part q := by
  obtain ⟨time, snapshot, hcommit⟩ := h.written
  have hrequest : w.store.ownsRequest q r.id = false := Store.owns_of_ne hw.requestIds hr hne
  refine Store.part_commitApproval hw (by exact hne) (by exact hrequest) ?_
    (fun k hk => hs.ownsComponent hr hne hk) hcommit
  intro p hp
  obtain ⟨x, hx, rfl⟩ := List.mem_map.mp hp
  obtain ⟨hf, hfile, hproject, -⟩ := h.files x hx
  have hown : w.store.ownsFile q x.1.id = false :=
    Store.owns_of_ne hw.fileIds hf (hproject ▸ hne)
  refine ⟨hown, fun d hd hid => ?_⟩
  have hdraft : d = x.2 :=
    hw.draftIds.eq_of_key_eq hd (Store.mem_activeDrafts.mp (h.mem_activeDrafts hx)).1 hid
  rw [hdraft, ← hfile]
  exact hown

theorem approveAndRebuild_part (h : w.store.Intact) (hs : w.store.Separate) {request user : String}
    (hq : w.store.projectOf? request ≠ some q) :
    (exec (approveAndRebuild setup request user) w).2.store.part q = w.store.part q := by
  refine (approveAndRebuild_yields h setup request user).world
    (R := fun v => v.store.part q = w.store.part q) (fun _ v _ hv => congrArg _ hv.store) ?_
  rintro outcome v he ⟨_, _, _, ⟨r, hr, rfl, -⟩, -⟩
  have hne : r.project ≠ q := by
    rintro rfl
    exact hq (Store.projectOf?_eq h.toConsistent hr)
  obtain ⟨pairs, u, hpromotes, -, -, hstore⟩ :=
    (approveAndRebuild_promotes h.toConsistent hr).of_ok he
  rw [hstore, Store.part_withGraph hne, hpromotes.part h hs hr hne]

/-- An action leaves the projects alone that it is not about, whether it succeeds or fails. -/
theorem part_step (setup : Setup) (h : w.store.Intact) (howned : w.store.Owned)
    (hs : w.store.Separate) {a : Action} (ha : a.isScoped = true)
    (hq : a.project? w.store ≠ some q) : (step setup w a).store.part q = w.store.part q := by
  have hne {r : ChangeRequest} (hr : r ∈ w.store.requests)
      (hq : w.store.projectOf? r.id ≠ some q) : r.project ≠ q := by
    rintro rfl
    exact hq (Store.projectOf?_eq h.toConsistent hr)
  cases a with
  | create project component author title description submitted =>
    refine (createRequest_decides w project component author title description submitted).stored
      (R := fun s => s.part q = w.store.part q) (fun v hv => hv.store) rfl ?_
    rintro r v ⟨hinsert, -, -, hproject⟩
    refine Store.part_insertRequest (fun heq => hq ?_) hinsert
    exact congrArg some (hproject.symm.trans heq)
  | submit request user =>
    refine (submitRequest_decides w request user).stored
      (R := fun s => s.part q = w.store.part q) (fun v hv => hv.store) rfl ?_
    rintro _ v ⟨r, hr, rfl, -, -, time, hstore⟩
    rw [hstore]
    exact Store.part_updateRequest h.readable (fun _ => rfl) (fun _ => rfl)
      (Store.ownsRequest_of_projectOf? h.toConsistent hq)
  | analyze request =>
    refine (analyzeRequest_yields setup request h.requestIds (fun _ hv => hv) (Or.inl h)).world
      (R := fun v => v.store.part q = w.store.part q) (fun _ v _ hv => congrArg _ hv.store) ?_
    intro report v he _
    obtain ⟨r, found, rfl, hanalyzes⟩ := analyzeRequest_analyzes setup h request he
    exact hanalyzes.part h howned (hne hanalyzes.request hq)
  | enrich assistant job =>
    exact (enrichRequest_part h job hq).world (R := fun v => v.store.part q = w.store.part q)
      (fun _ _ _ hv => hv) fun _ _ _ hv => hv
  | acknowledge impact user =>
    exact (acknowledgeImpact_decides h impact user).world
      (R := fun v => v.store.part q = w.store.part q) (fun _ v _ hv => congrArg _ hv.store)
      fun _ v _ hv => hv.part h (fun _ _ => rfl) hq
  | dismiss impact user =>
    exact (dismissImpact_decides h impact user).world
      (R := fun v => v.store.part q = w.store.part q) (fun _ v _ hv => congrArg _ hv.store)
      fun _ v _ hv => hv.1.part h (fun _ _ => rfl) hq
  | approve request user =>
    refine (approveRequest_ends setup request user).world
      (R := fun v => v.store.part q = w.store.part q) (fun _ v _ hv => congrArg _ hv.store) ?_
    rintro outcome v - ⟨-, r, pairs, hfound, hpromotes, -⟩
    obtain ⟨hr, rfl⟩ := Store.mem_of_request? hfound
    exact hpromotes.part h hs hr (hne hr hq)
  | approveAndRebuild request user => exact approveAndRebuild_part h hs hq
  | reject request user =>
    refine (rejectRequest_decides w request user).stored
      (R := fun s => s.part q = w.store.part q) (fun v hv => hv.store) rfl ?_
    rintro _ v ⟨r, hr, rfl, -, -, ⟨time, hstore⟩, -⟩
    rw [hstore]
    exact Store.part_commitRejection h (Store.ownsRequest_of_projectOf? h.toConsistent hq)
      (fun k hk => hs.ownsComponent hr (hne hr hq) hk) time
  | index project =>
    by_cases hp : ∃ p, w.store.project? project = .ok (some p)
    · obtain ⟨p, hp⟩ := hp
      rw [step_index h.toConsistent setup hp (Store.legible_of_readable h.readable project)]
      exact Store.part_index (fun heq => hq (congrArg some heq)) _ _
    · have hfails : Yields (indexProject setup project) w (fun v => v.store = w.store)
          fun _ v => v.store = w.store :=
        Yields.need (fun _ => rfl) fun p hp' => absurd ⟨p, hp'⟩ hp
      exact hfails.world (R := fun v => v.store.part q = w.store.part q)
        (fun _ _ _ hv => congrArg _ hv) fun _ _ _ hv => congrArg _ hv
  | _ => cases ha

/-- A component keeps its project. -/
theorem Component.Turns.project {a : Action} {k k' : Component} (h : k.Turns setup w a k') :
    k'.project = k.project := by
  cases h <;> rfl

/-- Impacts stay within the project of their request, as long as files stay within theirs. -/
theorem separate_step (setup : Setup) (h : w.store.Intact) (howned : w.store.Owned)
    (hs : w.store.Separate) (a : Action) : (step setup w a).store.Separate := by
  intro i hi r' hr' hrid k' hk' hkid
  have h' := (grows_step setup w a).intact h
  -- It is enough that the request and the component had the same project before.
  have hbefore {r : ChangeRequest} {k : Component} (hr : r ∈ w.store.requests)
      (hchange : r.id = i.change) (hk : k ∈ w.store.components) (hcomponent : k.id = i.component)
      (hproject : k.project = r.project) : k'.project = r'.project := by
    obtain ⟨r₁, hr₁, hsame, -⟩ := (requests_evolve setup h a).kept r hr
    obtain ⟨k₁, hk₁, hturn⟩ := components_turn setup h a hk
    have hrequest : r₁ = r' :=
      h'.requestIds.eq_of_key_eq hr₁ hr' (hsame.id.trans (hchange.trans hrid.symm))
    have hcomp : k₁ = k' :=
      h'.componentIds.eq_of_key_eq hk₁ hk' (hturn.id.trans (hcomponent.trans hkid.symm))
    rw [← hrequest, ← hcomp, hturn.project, hproject, hsame.project]
  rcases (effect_step setup h a).impact hi with
    ⟨j, hj, hji, hjk⟩ | ⟨r, found, report, -, hanalyzes, hfound⟩
  · obtain ⟨r, hr, hchange⟩ := h.impactRequests j hj _ rfl
    obtain ⟨k, hk, hcomponent⟩ := h.impactComponents j hj _ rfl
    have hproject := hs j hj r hr hchange k hk hcomponent
    exact hbefore hr (hchange.trans hji) hk (hcomponent.trans hjk) hproject
  · have hreached := hanalyzes.component_mem h.toConsistent hfound
    obtain ⟨k, hk, hcomponent⟩ := hanalyzes.exists_component h.toConsistent hreached
    exact hbefore hanalyzes.request (hanalyzes.change_eq hfound).symm hk hcomponent
      (hanalyzes.project_eq howned hk (hcomponent ▸ hreached))

end Step

/-! ## Runs -/

section Run

variable {setup : Setup} {w : World}

theorem separate_run (h : w.store.Intact) (hs : w.store.Separate) (actions : List Action)
    (howned : ∀ earlier, earlier <+: actions → (run setup w earlier).store.Owned) :
    (run setup w actions).store.Separate := by
  induction actions generalizing w with
  | nil => exact hs
  | cons a actions ih =>
    have hfirst : w.store.Owned := howned [] (List.nil_prefix ..)
    refine ih ((grows_step setup w a).intact h) (separate_step setup h hfirst hs a) ?_
    intro earlier hearlier
    exact howned (a :: earlier) ((List.prefix_cons_inj a).mpr hearlier)

/-- In a run in which the component of every file is one of the file's project, an action that
is about one project leaves all rows of the others as they are, whether it succeeds or fails. -/
theorem run_isolated (hw : w.store = {}) (actions : List Action)
    (howned : ∀ earlier, earlier <+: actions → (run setup w earlier).store.Owned) {a : Action}
    (ha : a.isScoped = true) {q : String} (hq : a.project? (run setup w actions).store ≠ some q) :
    (step setup (run setup w actions) a).store.part q = (run setup w actions).store.part q := by
  have hstart : w.store.Intact := hw ▸ Store.intact_empty
  have hnone : w.store.Separate := by
    rw [hw]
    intro i hi
    cases hi
  have hintact : (run setup w actions).store.Intact := (grows_run actions).intact hstart
  exact part_step setup hintact (howned actions (List.prefix_refl actions))
    (separate_run hstart hnone actions howned) ha hq

end Run

/-! ## Two projects -/

/-- A file of another project. -/
def sampleLedgerFile : ProjectFile where
  id := "f9"
  project := "bank"
  component := some "vault"
  path := "core/price"
  storageKey := "projects/bank/files/core/price"

/-- Two projects, each with a draft of the same author and a submitted request of theirs. -/
def sampleNeighbours : List Action :=
  [.enter (.project { id := "shop", name := "Shop", owner := "olga", strictness := .soft }),
    .enter (.project { id := "bank", name := "Bank", owner := "olga", strictness := .soft }),
    .enter (.component { id := "core", project := "shop", name := "Core" }),
    .enter (.component { id := "vault", project := "bank", name := "Core" }),
    .enter (.contributor { component := "vault", user := "udo" }),
    .enter (.file samplePrice), .enter (.file sampleLedgerFile),
    .enter (.draft sampleDraft),
    .enter (.draft { sampleDraft with id := "d9", file := "f9" }),
    .create "shop" "core" "ana" "Prices" "" true, .create "bank" "vault" "ana" "Rates" "" true]

/-- The analysis of the request of one project leaves the other as it is. -/
theorem sample_isolated :
    (∀ earlier, earlier <+: sampleNeighbours →
      (run sampleSetup { clock := ⟨0⟩ } earlier).store.Owned) ∧
    (Action.analyze sampleRequest.id).project?
      (run sampleSetup { clock := ⟨0⟩ } sampleNeighbours).store = some "shop" ∧
    ((run sampleSetup { clock := ⟨0⟩ } sampleNeighbours).store.part "bank").drafts.map (·.id) =
      ["d9"] ∧
    (step sampleSetup (run sampleSetup { clock := ⟨0⟩ } sampleNeighbours)
      (.analyze sampleRequest.id)).store.part "bank" =
        (run sampleSetup { clock := ⟨0⟩ } sampleNeighbours).store.part "bank" := by
  have howned : ∀ earlier, earlier <+: sampleNeighbours →
      (run sampleSetup { clock := ⟨0⟩ } earlier).store.Owned := by
    have hall : ∀ earlier ∈ sampleNeighbours.inits,
        (run sampleSetup { clock := ⟨0⟩ } earlier).store.Owned := by
      decide +kernel
    intro earlier hearlier
    exact hall earlier ((List.mem_inits ..).mpr hearlier)
  have hproject : (Action.analyze sampleRequest.id).project?
      (run sampleSetup { clock := ⟨0⟩ } sampleNeighbours).store = some "shop" := by
    decide +kernel
  refine ⟨howned, hproject, by decide +kernel,
    run_isolated rfl sampleNeighbours howned rfl ?_⟩
  rw [hproject]
  decide

end ChangeImpact
