import ChangeImpact.Proofs.Workflow.Found

/-!
# Flags of components

An analysis flags the components that it reaches, whether or not they have contributors.
A decision on a request makes the components stable on which the request has impacts,
whatever the impacts of other requests are. So a component with an impact of an open request
is flagged, unless the decision on another request released it since.
-/

namespace ChangeImpact

open Operation

/-- The components after the decision on a request. -/
def Store.released (s : Store) (request : String) : List Component :=
  updateWhere (fun k => (s.affectedBy request).contains k.id)
    (fun k => { k with status := .stable }) s.components

/-- What an action can make of a component. -/
inductive Component.Turns (setup : Setup) (w : World) (a : Action) (k : Component) :
    Component → Prop where
  | stay : Turns setup w a k k
  | set {ids : List String} {status : ComponentStatus}
      (action : a = .enter (.componentStatus ids status)) : Turns setup w a k { k with status }
  /-- An analysis reaches the component. -/
  | flag {r : ChangeRequest} {found : Analysis} {report : ImpactReport}
      (action : a = .analyze r.id) (analyzes : Analyzes setup r found report w (step setup w a))
      (reached : k.id ∈ report.affectedComponents) :
      Turns setup w a k { k with status := .flagged }
  /-- A request with an impact on the component is decided. -/
  | release {request : String} (action : a.decided? = some request) (passed : a.Passes setup w)
      (affected : k.id ∈ w.store.affectedBy request) :
      Turns setup w a k { k with status := .stable }

section Step

variable {setup : Setup} {w w' : World} {a : Action}

theorem Component.Turns.id {k k' : Component} (h : k.Turns setup w a k') : k'.id = k.id := by
  cases h <;> rfl

theorem Action.decided?_of_approved? {request : String} (h : a.approved? = some request) :
    a.decided? = some request := by
  cases a with
  | approve => exact h
  | approveAndRebuild => exact h
  | _ => cases h

theorem Approves.components {r : ChangeRequest} {pairs : List (ProjectFile × Draft)} {v : World}
    (h : Approves setup r pairs w v w') : w'.store.components = w.store.released r.id := by
  obtain ⟨time, snapshot, hcommit⟩ := h.promotes.written
  exact h.alike.store.components.trans (Store.components_commitApproval hcommit)

/-- A decision releases the components with impacts of the request, and the request is closed. -/
theorem Effect.decided (h : Effect setup w a w') {request : String}
    (ha : a.decided? = some request) (hpassed : a.Passes setup w) :
    w'.store.components = w.store.released request ∧
      ∀ r ∈ w'.store.requests, r.id = request → r.status.isTerminal = true := by
  have hclosed {status : ChangeStatus} {time : Instant} (hstatus : status.isTerminal = true)
      (hrequests : w'.store.requests = Store.updateWhere (·.id = request) (fun r =>
        { r with status, updatedAt := time, resolvedAt := some time }) w.store.requests) :
      ∀ r ∈ w'.store.requests, r.id = request → r.status.isTerminal = true := by
    intro r hr hrid
    rw [hrequests] at hr
    obtain ⟨q, -, rfl⟩ := Store.mem_updateWhere.mp hr
    by_cases hq : decide (q.id = request) = true
    · rw [if_pos hq]
      exact hstatus
    · rw [if_neg hq] at hrid
      exact absurd (decide_eq_true hrid) hq
  cases h with
  | aside undecided => exact absurd hpassed (undecided _ ha)
  | enter => cases ha
  | objects => cases ha
  | load => cases ha
  | analyze => cases ha
  | approve action _ approves =>
    cases (Action.decided?_of_approved? action).symm.trans ha
    obtain ⟨time, snapshot, hcommit⟩ := approves.promotes.written
    exact ⟨approves.components,
      hclosed rfl (approves.requests.trans (Store.requests_commitApproval hcommit))⟩
  | retract _ failed => exact absurd hpassed failed
  | reject _ _ _ written =>
    cases ha
    obtain ⟨time, hstore⟩ := written
    have hclose : w'.store.requests = _ := congrArg Store.requests hstore
    exact ⟨congrArg Store.components hstore, hclosed rfl hclose⟩

/-- What an action makes of a component. -/
theorem components_turn (setup : Setup) (h : w.store.Intact) (a : Action) {k : Component}
    (hk : k ∈ w.store.components) :
    ∃ k' ∈ (step setup w a).store.components, k.Turns setup w a k' := by
  have hsame {v : World} (hv : v.store.components = w.store.components) :
      ∃ k' ∈ v.store.components, k.Turns setup w a k' := ⟨k, hv ▸ hk, .stay⟩
  have hset {v : World} {p : Component → Bool} {status : ComponentStatus}
      (hv : v.store.components =
        Store.updateWhere p (fun k => { k with status }) w.store.components)
      (hturn : p k = true → k.Turns setup w a { k with status }) :
      ∃ k' ∈ v.store.components, k.Turns setup w a k' := by
    rw [hv]
    refine ⟨_, Store.mem_updateWhere.mpr ⟨k, hk, rfl⟩, ?_⟩
    by_cases hp : p k = true
    · rw [if_pos hp]
      exact hturn hp
    · rw [if_neg hp]
      exact .stay
  have heff := effect_step setup h a
  generalize hw' : step setup w a = w' at heff ⊢
  cases heff with
  | aside _ alike => exact hsame alike.store.components
  | @enter row t enters =>
    cases row with
    | component c =>
      cases enters
      exact ⟨k, List.mem_append_left _ hk, .stay⟩
    | componentStatus ids status =>
      cases enters
      exact hset rfl fun _ => .set rfl
    | file f =>
      obtain ⟨id, hrow⟩ := enters
      exact hsame ((congrArg Store.components (Store.eq_of_upsertFile hrow)).trans rfl)
    | contributor c => exact hsame enters.components
    | edge project e => exact hsame enters.components
    | _ =>
      cases enters
      exact hsame rfl
  | objects => exact hsame rfl
  | load loads => exact hsame ((congrArg Store.components loads.store).trans rfl)
  | analyze analyzes =>
    exact hset analyzes.components fun hreached =>
      .flag rfl (hw' ▸ analyzes) (List.contains_iff_mem.mp hreached)
  | approve action passed approves =>
    exact hset approves.components fun haffected =>
      .release (Action.decided?_of_approved? action) passed (List.contains_iff_mem.mp haffected)
  | retract _ _ retracted => exact hsame (congrArg Store.components retracted.store)
  | reject _ _ passed written =>
    obtain ⟨time, hstore⟩ := written
    exact hset ((congrArg Store.components hstore).trans rfl) fun haffected =>
      .release rfl passed (List.contains_iff_mem.mp haffected)

/-- An impact was there before, up to what is said about it, or the analysis just found it. -/
theorem Effect.impact (h : Effect setup w a w') {i : Impact} (hi : i ∈ w'.store.impacts) :
    (∃ j ∈ w.store.impacts, j.change = i.change ∧ j.component = i.component) ∨
      ∃ r found report, a = .analyze r.id ∧ Analyzes setup r found report w w' ∧
        i ∈ found.impacts := by
  rcases h.impacts with heq | ⟨r, found, report, ha, hanalyzes⟩
  · have hmem := List.mem_map_of_mem (f := Impact.found) hi
    rw [heq] at hmem
    obtain ⟨j, hj, hfound⟩ := List.mem_map.mp hmem
    have hcolumn {α : Type} (column : Impact → α) : column j.found = column i.found := by
      rw [hfound]
    exact Or.inl ⟨j, hj, hcolumn (·.change), hcolumn (·.component)⟩
  · rw [hanalyzes.impacts] at hi
    rcases List.mem_append.mp hi with hi | hi
    · exact Or.inl ⟨i, hi, rfl, rfl⟩
    · exact Or.inr ⟨r, found, report, ha, hanalyzes, hi⟩

/-- A component on which an analysis finds an impact is flagged by it. -/
theorem Analyzes.flagged {r : ChangeRequest} {found : Analysis} {report : ImpactReport}
    (h : Analyzes setup r found report w w') (hw : w.store.Consistent) {i : Impact}
    (hi : i ∈ found.impacts) {k : Component} (hk : k ∈ w'.store.components)
    (hid : k.id = i.component) : k.status = .flagged := by
  rw [h.components] at hk
  obtain ⟨k', -, rfl⟩ := Store.mem_updateWhere.mp hk
  by_cases hp : report.affectedComponents.contains k'.id = true
  · rw [if_pos hp]
  · rw [if_neg hp] at hid
    exact absurd (List.contains_iff_mem.mpr (hid ▸ h.component_mem hw hi)) hp

/-- A request that is open was open before. -/
theorem ChangeRequest.Turns.isTerminal {passes : Prop} {projects : List Project}
    {r r' : ChangeRequest} (h : r.Turns passes projects a r')
    (hopen : r'.status.isTerminal = false) : r.status.isTerminal = false := by
  cases h with
  | stay same => rwa [same] at hopen
  | submit _ _ before => rw [before]; rfl
  | advance before =>
    rcases before with before | before
    · rw [before]; rfl
    · rw [before]; rfl
  | approve _ _ _ _ _ after => rw [after] at hopen; cases hopen
  | reject _ _ _ _ before => exact before

/-- After an action a component with an impact of an open request is flagged, or it had the impact
and is the same as before, or the decision on another request just released it. -/
theorem flagged_step (setup : Setup) (h : w.store.Intact)
    (hset : ∀ ids status, a ≠ .enter (.componentStatus ids status)) {i : Impact}
    (hi : i ∈ (step setup w a).store.impacts) {r : ChangeRequest}
    (hr : r ∈ (step setup w a).store.requests) (hir : i.change = r.id)
    (hopen : r.status.isTerminal = false) {k : Component}
    (hk : k ∈ (step setup w a).store.components) (hik : i.component = k.id) :
    k.status = .flagged ∨
      (∃ j ∈ w.store.impacts, j.change = r.id ∧ j.component = k.id) ∧
      (∃ q ∈ w.store.requests, q.id = r.id ∧ q.status.isTerminal = false) ∧
      (k ∈ w.store.components ∨ ∃ other, a.decided? = some other ∧ a.Passes setup w ∧
        other ≠ r.id ∧ k.id ∈ w.store.affectedBy other) := by
  have h' := (grows_step setup w a).intact h
  have heff := effect_step setup h a
  rcases heff.impact hi with ⟨j, hj, hji, hjk⟩ | ⟨q, found, report, rfl, hanalyzes, hfound⟩
  · have hjr : j.change = r.id := hji.trans hir
    obtain ⟨q, hq, hqid⟩ := h.impactRequests j hj _ rfl
    obtain ⟨q', hq', hsame, hturns⟩ := (requests_evolve setup h a).kept q hq
    obtain rfl : q' = r := h'.requestIds.eq_of_key_eq hq' hr (hsame.id.trans (hqid.trans hjr))
    obtain ⟨k₀, hk₀, hkid⟩ := h.impactComponents j hj _ rfl
    obtain ⟨k', hk', hturn⟩ := components_turn setup h a hk₀
    obtain rfl : k' = k :=
      h'.componentIds.eq_of_key_eq hk' hk (hturn.id.trans (hkid.trans (hjk.trans hik)))
    have hbefore : (∃ j ∈ w.store.impacts, j.change = q'.id ∧ j.component = k'.id) ∧
        ∃ q ∈ w.store.requests, q.id = q'.id ∧ q.status.isTerminal = false :=
      ⟨⟨j, hj, hjr, hjk.trans hik⟩, q, hq, hsame.id.symm, hturns.isTerminal hopen⟩
    cases hturn with
    | stay => exact Or.inr ⟨hbefore.1, hbefore.2, Or.inl hk₀⟩
    | set action => exact absurd action (hset _ _)
    | flag => exact Or.inl rfl
    | @release other action passed affected =>
      refine Or.inr ⟨hbefore.1, hbefore.2, Or.inr ⟨other, action, passed, ?_, affected⟩⟩
      rintro rfl
      rw [(heff.decided action passed).2 _ hr rfl] at hopen
      cases hopen
  · exact Or.inl (hanalyzes.flagged h.toConsistent hfound hk hik.symm)

end Step

/-! ## Components with impacts of open requests -/

/-- In the run a decision on another request released a component that had impacts of both, and
the component was not flagged since. -/
def ReleasedEarly (setup : Setup) (w : World) (actions : List Action) (request component : String) :
    Prop :=
  ∃ before a after other, actions = before ++ a :: after ∧
    (a.decided? = some other ∧ a.Passes setup (run setup w before) ∧ other ≠ request) ∧
    (∀ q ∈ [request, other], ∃ i ∈ (run setup w before).store.impacts,
      i.change = q ∧ i.component = component) ∧
    ∀ later, later <+: after → ∀ k ∈ (run setup w (before ++ a :: later)).store.components,
      k.id = component → k.status ≠ .flagged

section Run

variable {setup : Setup} {w : World} {request component : String}

theorem ReleasedEarly.concat {actions : List Action} {a : Action}
    (h : ReleasedEarly setup w actions request component)
    (hk : ∀ k ∈ (run setup w (actions ++ [a])).store.components, k.id = component →
      k.status ≠ .flagged) :
    ReleasedEarly setup w (actions ++ [a]) request component := by
  obtain ⟨before, b, after, other, rfl, hdecided, himpacts, hsince⟩ := h
  have happend : before ++ b :: after ++ [a] = before ++ b :: (after ++ [a]) := by
    rw [List.append_assoc, List.cons_append]
  refine ⟨before, b, after ++ [a], other, happend, hdecided, himpacts, fun later hlater => ?_⟩
  rcases List.prefix_concat_iff.mp hlater with rfl | hlater
  · exact happend ▸ hk
  · exact hsince later hlater

/-- A component with an impact of an open request is flagged, unless it was released early. -/
theorem flagged_or_released (hw : w.store.Intact) (hnone : w.store.impacts = [])
    (actions : List Action)
    (hset : ∀ ids status, Action.enter (.componentStatus ids status) ∉ actions) {i : Impact}
    (hi : i ∈ (run setup w actions).store.impacts) {r : ChangeRequest}
    (hr : r ∈ (run setup w actions).store.requests) (hir : i.change = r.id)
    (hopen : r.status.isTerminal = false) {k : Component}
    (hk : k ∈ (run setup w actions).store.components) (hik : i.component = k.id) :
    k.status = .flagged ∨ ReleasedEarly setup w actions r.id k.id := by
  induction actions using List.reverseRecOn generalizing i r k with
  | nil =>
    have hmem : i ∈ w.store.impacts := hi
    rw [hnone] at hmem
    cases hmem
  | append_singleton actions a ih =>
    have hv : (run setup w actions).store.Intact := (grows_run actions).intact hw
    have hrun : run setup w (actions ++ [a]) = step setup (run setup w actions) a := run_append ..
    rw [or_iff_not_imp_left]
    intro hflag
    -- there is one component of this identifier, so none of it is flagged now
    have hnow : ∀ k' ∈ (run setup w (actions ++ [a])).store.components, k'.id = k.id →
        k'.status ≠ .flagged := by
      intro k' hk' hid
      have hafter : (run setup w (actions ++ [a])).store.Intact := (grows_run _).intact hw
      rwa [hafter.componentIds.eq_of_key_eq hk' hk hid]
    rw [hrun] at hi hr hk
    rcases flagged_step setup hv (fun ids status heq => hset ids status
      (List.mem_append_right _ (heq ▸ List.mem_singleton_self _))) hi hr hir hopen hk hik with
      hflagged | ⟨⟨j, hj, hjr, hjk⟩, ⟨q, hq, hqr, hqopen⟩,
        hk | ⟨other, hdecided, hpassed, hne, haffected⟩⟩
    · exact absurd hflagged hflag
    · have hreleased := (ih (fun ids status hm => hset ids status (List.mem_append_left _ hm)) hj hq
        (hjr.trans hqr.symm) hqopen hk hjk).resolve_left hflag
      rw [hqr] at hreleased
      exact hreleased.concat hnow
    · refine ⟨actions, a, [], other, rfl, ⟨hdecided, hpassed, hne⟩, fun p hp => ?_,
        fun later hl => ?_⟩
      · rcases List.mem_pair.mp hp with rfl | rfl
        · exact ⟨j, hj, hjr, hjk⟩
        · exact Store.mem_affectedBy.mp haffected
      · rw [List.prefix_nil.mp hl]
        exact hnow

/-- The rejection of a request makes stable what it has impacts on. Another request that has an
impact on the same component stays open. -/
theorem stable_of_rejected (setup : Setup) (h : w.store.Intact) {q r : ChangeRequest}
    (hq : q ∈ w.store.requests) (hopen : q.status.isTerminal = false) (hr : r ∈ w.store.requests)
    (hne : r.id ≠ q.id) {p : Project} (hp : p ∈ w.store.projects) (hid : p.id = q.project)
    {i : Impact} (hi : i ∈ w.store.impacts) (hchange : i.change = q.id) {k : Component}
    (hk : k ∈ w.store.components) (hik : i.component = k.id) :
    r ∈ (step setup w (.reject q.id p.owner)).store.requests ∧
      (step setup w (.reject q.id p.owner)).store.impacts = w.store.impacts ∧
      { k with status := .stable } ∈ (step setup w (.reject q.id p.owner)).store.components := by
  obtain ⟨_, w', he, time, hstore⟩ := (rejectRequest_succeeds h hq hopen hp hid).exists_ok
  rw [step_eq_of_exec (a := .reject q.id p.owner) he, hstore]
  refine ⟨Store.mem_updateWhere.mpr ⟨r, hr, if_neg fun hp => hne (of_decide_eq_true hp)⟩, rfl,
    Store.mem_updateWhere.mpr ⟨k, hk, if_pos (List.contains_iff_mem.mpr ?_)⟩⟩
  exact Store.mem_affectedBy.mpr ⟨i, hi, hchange, hik⟩

/-! ## Two requests on one component -/

/-- A file of a third component that imports what the drafted file of the small project exports. -/
def sampleReport : ProjectFile where
  id := "f3"
  project := "shop"
  component := some "api"
  path := "api/report"
  storageKey := "projects/shop/files/api/report"
  symbols := some
    { path := "api/report"
      language := "text"
      imports := [{ source := "../core/price", symbols := ["total"], line := 1 }] }

/-- The small project with two components that import from the core, only one of which has a
contributor, and with two submitted requests. -/
def sampleLinking : List Action :=
  [.enter (.project { id := "shop", name := "Shop", owner := "olga", strictness := .soft }),
    .enter (.component { id := "core", project := "shop", name := "Core" }),
    .enter (.component { id := "ui", project := "shop", name := "UI" }),
    .enter (.component { id := "api", project := "shop", name := "API" }),
    .enter (.contributor { component := "ui", user := "udo" }),
    .enter (.file samplePrice), .enter (.file sampleCart), .enter (.file sampleReport),
    .enter (.edge "shop" { source := "ui", target := "core" }),
    .enter (.edge "shop" { source := "api", target := "core" }),
    .enter (.draft sampleDraft),
    .create "shop" "core" "ana" "Prices" "" true, .create "shop" "core" "ana" "Taxes" "" true]

/-- The world that these actions lead to. -/
def sampleLinked : World := run sampleSetup { clock := ⟨0⟩ } sampleLinking

/-- The second of the requests. -/
def sampleTaxes : ChangeRequest :=
  { sampleRequest with
    id := idOf 1, title := "Taxes", createdAt := ⟨Operation.tick⟩, updatedAt := ⟨Operation.tick⟩ }

theorem reachable_sampleLinked : Reachable sampleSetup sampleLinked :=
  (Reachable.start rfl rfl).run _

/-- What is in its tables when nothing has been analysed yet. -/
theorem rows_sampleLinked :
    (∃ p ∈ sampleLinked.store.projects, p.id = "shop" ∧ p.owner = "olga") ∧
      (∃ c ∈ sampleLinked.store.contributors, c.component = "ui") ∧
      sampleRequest ∈ sampleLinked.store.requests ∧ sampleLinked.store.impacts = [] := by
  decide +kernel

/-- As long as files, drafts and edges stay, a request of the author reaches both components. -/
theorem reaches_sampleLinked {v : World} (hfiles : v.store.files = sampleLinked.store.files)
    (hdrafts : v.store.drafts = sampleLinked.store.drafts)
    (hedges : v.store.edges = sampleLinked.store.edges) {r : ChangeRequest}
    (hproject : r.project = "shop") (hauthor : r.author = "ana")
    (hcomponent : r.component = "core") :
    v.Reaches sampleSetup r "ui" ∧ v.Reaches sampleSetup r "api" := by
  have hfile {f : ProjectFile} (hf : f ∈ sampleLinked.store.files) : f ∈ v.store.files := by
    rwa [hfiles]
  have hprice : samplePrice ∈ v.store.files := hfile (by decide +kernel)
  have hdraft : sampleDraft ∈ v.store.drafts := by
    rw [hdrafts]
    decide +kernel
  have hchanges : v.Changes sampleSetup r "total" :=
    ⟨samplePrice, sampleDraft, ⟨hdraft, hauthor.symm, rfl, hprice, rfl, by rw [hcomponent]; rfl⟩,
      by decide +kernel⟩
  -- both files import the export that the draft changes
  have hvia {c : String} {f : ProjectFile} {symbols : ParsedFile} {i : Import} (hc : c ≠ "core")
      (hedge : ∃ row ∈ sampleLinked.store.edges, row.project = "shop" ∧ row.edge.source = c ∧
        row.edge.target = "core")
      (hf : f ∈ sampleLinked.store.files) (hown : f.project = "shop" ∧ f.component = some c)
      (hsymbols : f.symbols = some symbols) (hi : i ∈ symbols.imports)
      (himports : i.isRelative = true ∧ i.bindsEverything = false ∧ "total" ∈ i.symbols)
      (hpath : Path.resolve f.path i.source (sampleLinked.store.snapshottedPaths "shop") =
        some samplePrice.path) :
      v.Reaches sampleSetup r c := by
    simp only [World.Reaches, Store.Imports, Store.snapshottedPaths, hproject, hcomponent, hedges,
      hfiles]
    exact ⟨⟨hc, hedge⟩, f, symbols, ⟨hfile hf, hown.1, hsymbols⟩, hown.2, i, hi, himports.1,
      samplePrice, _, ⟨hprice, rfl, rfl⟩, rfl, hpath,
      Or.inr ⟨himports.2.1, "total", hchanges, Or.inl himports.2.2⟩⟩
  constructor
  · exact hvia (f := sampleCart) (by decide) (by decide +kernel) (by decide +kernel) ⟨rfl, rfl⟩ rfl
      (List.mem_singleton_self _) (by decide +kernel) (by decide +kernel)
  · exact hvia (f := sampleReport) (by decide) (by decide +kernel) (by decide +kernel) ⟨rfl, rfl⟩
      rfl (List.mem_singleton_self _) (by decide +kernel) (by decide +kernel)

/-- Analysing a request of the author finds an impact on the component with a contributor. -/
theorem exists_impact_sampleLinked {v v' : World} {r : ChangeRequest} {found : Analysis}
    {report : ImpactReport} (h : Analyzes sampleSetup r found report v v')
    (hv : v.store.Consistent) (hreaches : v.Reaches sampleSetup r "ui")
    (hcontributors : v.store.contributors = sampleLinked.store.contributors) :
    ∃ i ∈ v'.store.impacts, i.change = r.id ∧ i.component = "ui" := by
  have hreached : "ui" ∈ report.affectedComponents := by
    rw [h.reported, h.fits.mem_affected hv]
    exact hreaches
  obtain ⟨-, hwatched, -, -⟩ := rows_sampleLinked
  obtain ⟨i, hi, hcomponent⟩ := (h.exists_impact_iff hv hreached).mpr (by
    rw [hcontributors]
    exact hwatched)
  rw [h.impacts]
  exact ⟨i, List.mem_append_right _ hi, h.change_eq hi, hcomponent⟩

theorem isFresh_sampleLinked : sampleLinked.IsFresh := by
  obtain ⟨-, -, -, hnone⟩ := rows_sampleLinked
  intro n _ i hi
  rw [hnone] at hi
  cases hi

/-- After the analysis of the first request the component with a contributor is flagged. -/
theorem sample_flagged :
    sampleLinked.store.Intact ∧ sampleLinked.store.impacts = [] ∧
    ∃ i ∈ (run sampleSetup sampleLinked [.analyze sampleRequest.id]).store.impacts,
    ∃ r ∈ (run sampleSetup sampleLinked [.analyze sampleRequest.id]).store.requests,
    ∃ k ∈ (run sampleSetup sampleLinked [.analyze sampleRequest.id]).store.components,
      i.change = r.id ∧ r.status.isTerminal = false ∧ i.component = k.id ∧
      (k.status = .flagged ∨
        ReleasedEarly sampleSetup sampleLinked [.analyze sampleRequest.id] r.id k.id) := by
  have hintact := reachable_sampleLinked.intact
  have hnone : sampleLinked.store.impacts = [] := by decide +kernel
  have hset : ∀ ids status, Action.enter (.componentStatus ids status) ∉
      [Action.analyze sampleRequest.id] := by
    intro ids status hm
    cases List.mem_singleton.mp hm
  obtain ⟨found, report, hanalyzes, -⟩ := exists_analyzes_of_pending sampleSetup hintact
    (show sampleRequest ∈ sampleLinked.store.requests by decide +kernel) rfl isFresh_sampleLinked
  obtain ⟨i, hi, hchange, hcomponent⟩ := exists_impact_sampleLinked hanalyzes hintact.toConsistent
    (reaches_sampleLinked rfl rfl rfl rfl rfl rfl).1 rfl
  obtain ⟨r, hr, hsame, hs⟩ := hanalyzes.exists_request
  have hafter := (grows_step sampleSetup sampleLinked (.analyze sampleRequest.id)).intact hintact
  obtain ⟨k, hk, hid⟩ := hafter.impactComponents i hi _ rfl
  have hopen := ChangeStatus.isOpen_of_isReady hs
  have hrun : run sampleSetup sampleLinked [.analyze sampleRequest.id] =
    step sampleSetup sampleLinked (.analyze sampleRequest.id) := rfl
  rw [← hrun] at hi hr hk
  exact ⟨hintact, hnone, i, hi, r, hr, k, hk, hchange.trans hsame.id.symm, hopen, hid.symm,
    flagged_or_released hintact hnone [.analyze sampleRequest.id] hset hi hr
      (hchange.trans hsame.id.symm) hopen hk hid.symm⟩

/-- Both requests are analysed, and the first one is rejected. -/
def sampleConflict : List Action :=
  [.analyze sampleRequest.id, .analyze sampleTaxes.id, .reject sampleRequest.id "olga"]

/-- Then the component on which both have impacts is stable, although the second is open. -/
theorem sample_released_early :
    (∀ ids status, .enter (.componentStatus ids status) ∉ sampleLinking ++ sampleConflict) ∧
    ∃ i ∈ (run sampleSetup { clock := ⟨0⟩ } (sampleLinking ++ sampleConflict)).store.impacts,
    ∃ r ∈ (run sampleSetup { clock := ⟨0⟩ } (sampleLinking ++ sampleConflict)).store.requests,
    ∃ k ∈ (run sampleSetup { clock := ⟨0⟩ } (sampleLinking ++ sampleConflict)).store.components,
      i.change = r.id ∧ r.status.isTerminal = false ∧ i.component = k.id ∧ k.status = .stable := by
  refine ⟨by simp [sampleLinking, sampleConflict], ?_⟩
  have hintact := reachable_sampleLinked.intact
  have hprices : sampleRequest ∈ sampleLinked.store.requests := by decide +kernel
  have htaxes : sampleTaxes ∈ sampleLinked.store.requests := by decide +kernel
  have hshop : ∃ p ∈ sampleLinked.store.projects, p.id = "shop" ∧ p.owner = "olga" := by
    decide +kernel
  have hrun : run sampleSetup { clock := ⟨0⟩ } (sampleLinking ++ sampleConflict) =
      step sampleSetup (step sampleSetup (step sampleSetup sampleLinked (.analyze sampleRequest.id))
        (.analyze sampleTaxes.id)) (.reject sampleRequest.id "olga") := run_append ..
  rw [hrun]
  obtain ⟨found, report, hfirst, hfresh⟩ :=
    exists_analyzes_of_pending sampleSetup hintact hprices rfl isFresh_sampleLinked
  have hfirstIntact :=
    (grows_step sampleSetup sampleLinked (.analyze sampleRequest.id)).intact hintact
  have hpending := hfirst.mem_requests_of_ne htaxes (by decide)
  obtain ⟨found', report', hsecond, -⟩ :=
    exists_analyzes_of_pending sampleSetup hfirstIntact hpending rfl hfresh
  have hsecondIntact := (grows_step sampleSetup _ (.analyze sampleTaxes.id)).intact hfirstIntact
  obtain ⟨hprojects, hfiles, hdrafts, hedges, hcontributors⟩ := hfirst.inputs
  have hprojects' := hsecond.inputs.1
  generalize step sampleSetup sampleLinked (.analyze sampleRequest.id) = v at *
  generalize step sampleSetup v (.analyze sampleTaxes.id) = u at *
  obtain ⟨i, hi, hchange, hcomponent⟩ := exists_impact_sampleLinked hfirst hintact.toConsistent
    (reaches_sampleLinked rfl rfl rfl rfl rfl rfl).1 rfl
  obtain ⟨j, hj, hchange', hcomponent'⟩ := exists_impact_sampleLinked hsecond
    hfirstIntact.toConsistent (reaches_sampleLinked hfiles hdrafts hedges rfl rfl rfl).1
    hcontributors
  obtain ⟨q, hq, hsame, hs⟩ := hfirst.exists_request
  obtain ⟨r, hr, hsame', hs'⟩ := hsecond.exists_request
  obtain ⟨p, hp, hpid, howner⟩ := hshop
  rw [← hprojects, ← hprojects'] at hp
  obtain ⟨k, hk, hkid⟩ := hsecondIntact.impactComponents j hj _ rfl
  rw [hsecond.impacts] at hj
  obtain ⟨hstays, himpacts, hstable⟩ := stable_of_rejected sampleSetup hsecondIntact
    (hsecond.mem_requests_of_ne hq (by rw [hsame.id]; decide)) (ChangeStatus.isOpen_of_isReady hs)
    hr (by rw [hsame.id, hsame'.id]; decide) hp (hpid.trans hsame.project.symm)
    (hsecond.impacts ▸ List.mem_append_left _ hi) (hchange.trans hsame.id.symm) hk
    (hcomponent.trans (hcomponent'.symm.trans hkid.symm))
  rw [hsame.id, howner] at hstays himpacts hstable
  rw [himpacts, hsecond.impacts]
  exact ⟨j, hj, r, hstays, _, hstable, hchange'.trans hsame'.id.symm,
    ChangeStatus.isOpen_of_isReady hs', hkid.symm, rfl⟩

/-! ## Components that an analysis reached -/

theorem exists_component_run (setup : Setup) (h : w.store.Intact) (actions : List Action)
    {k : Component} (hk : k ∈ w.store.components) :
    ∃ k' ∈ (run setup w actions).store.components, k'.id = k.id := by
  induction actions generalizing w k with
  | nil => exact ⟨k, hk, rfl⟩
  | cons a actions ih =>
    obtain ⟨k', hk', hturn⟩ := components_turn setup h a hk
    obtain ⟨k'', hk'', hid⟩ := ih ((grows_step setup w a).intact h) hk'
    exact ⟨k'', hk'', hid.trans hturn.id⟩

/-- Of the components that its analysis reached, the decision on a request releases those with
contributors at the time of the analysis. -/
theorem Analyzes.mem_affectedBy {r : ChangeRequest} {found : Analysis} {report : ImpactReport}
    {w' : World} (h : Analyzes setup r found report w w') (hw : Reachable setup w)
    (hw' : w'.store.Intact) (actions : List Action) {c : String}
    (hc : c ∈ report.affectedComponents) :
    c ∈ (run setup w' actions).store.affectedBy r.id ↔
      ∃ m ∈ w.store.contributors, m.component = c := by
  obtain ⟨q, hq, hsame, hs⟩ := h.exists_request
  have hrest := foundOn_run setup hw' actions hq (ChangeStatus.isWaiting_of_isReady hs)
  have hfound := h.foundOn (change_ne_of_pending hw.allAgree h.request h.pending)
  rw [hsame.id] at hrest
  rw [Store.mem_affectedBy, ← Store.exists_mem_foundOn, hrest, hfound,
    ← h.exists_impact_iff hw.intact.toConsistent hc]
  simp only [List.mem_map, exists_exists_and_eq_and]
  exact Iff.rfl

/-- When a request is decided, the components that its analysis flagged get stable if they had
contributors then; the decision leaves the others as they are. -/
theorem decided_releases (h : Reachable setup w) {request : String} {report : ImpactReport}
    {w' : World} (he : exec (analyzeRequest setup request) w = (.ok report, w'))
    (actions : List Action) {a : Action} (ha : a.decided? = some request)
    (hpassed : a.Passes setup (run setup w' actions)) {c : String}
    (hc : c ∈ report.affectedComponents) :
    ∃ k ∈ (run setup w' actions).store.components, k.id = c ∧
      ((∃ m ∈ w.store.contributors, m.component = c) →
        { k with status := .stable } ∈ (step setup (run setup w' actions) a).store.components) ∧
      ((∀ m ∈ w.store.contributors, m.component ≠ c) →
        k ∈ (step setup (run setup w' actions) a).store.components) := by
  have hw' : Reachable setup w' := step_eq_of_exec (a := .analyze request) he ▸ h.step _
  obtain ⟨r, found, rfl, hanalyzes⟩ := analyzeRequest_analyzes setup h.intact request he
  obtain ⟨k₀, hk₀, rfl⟩ := hanalyzes.exists_component h.intact.toConsistent hc
  obtain ⟨k₁, hk₁, hturn⟩ := components_turn setup h.intact (.analyze r.id) hk₀
  rw [step_eq_of_exec (a := .analyze r.id) he] at hk₁
  obtain ⟨k, hk, hid⟩ := exists_component_run setup hw'.intact actions hk₁
  have haffected := hanalyzes.mem_affectedBy h hw'.intact actions hc
  have hcomponents :=
    ((effect_step setup (hw'.run actions).intact a).decided ha hpassed).1
  rw [← hturn.id, ← hid] at haffected ⊢
  refine ⟨k, hk, rfl, fun hm => ?_, fun hm => ?_⟩
  · rw [hcomponents]
    exact Store.mem_updateWhere.mpr
      ⟨k, hk, if_pos (List.contains_iff_mem.mpr (haffected.mpr hm))⟩
  · rw [hcomponents]
    refine Store.mem_updateWhere.mpr ⟨k, hk, if_neg fun hp => ?_⟩
    obtain ⟨m, hmem, heq⟩ := haffected.mp (List.contains_iff_mem.mp hp)
    exact hm m hmem heq

end Run

/-- The first request of the project with two importing components is analysed and rejected. -/
theorem exists_rejected_sampleLinked :
    ∃ found report v w', Analyzes sampleSetup sampleRequest found report sampleLinked v ∧
      v.store.Intact ∧ exec (rejectRequest sampleRequest.id "olga") v = (.ok (), w') ∧
      "ui" ∈ report.affectedComponents ∧ "api" ∈ report.affectedComponents := by
  have hintact := reachable_sampleLinked.intact
  obtain ⟨hshop, -, hrequest, -⟩ := rows_sampleLinked
  obtain ⟨found, report, hanalyzes, -⟩ :=
    exists_analyzes_of_pending sampleSetup hintact hrequest rfl isFresh_sampleLinked
  have hafter := (grows_step sampleSetup sampleLinked (.analyze sampleRequest.id)).intact hintact
  generalize step sampleSetup sampleLinked (.analyze sampleRequest.id) = v at *
  obtain ⟨q, hq, hsame, hs⟩ := hanalyzes.exists_request
  obtain ⟨p, hp, hpid, howner⟩ := hshop
  rw [← hanalyzes.inputs.1] at hp
  obtain ⟨_, w', he, -⟩ := (rejectRequest_succeeds hafter hq (ChangeStatus.isOpen_of_isReady hs) hp
    (hpid.trans hsame.project.symm)).exists_ok
  rw [hsame.id, howner] at he
  obtain ⟨hui, hapi⟩ := reaches_sampleLinked rfl rfl rfl (r := sampleRequest) rfl rfl rfl
  refine ⟨found, report, v, w', hanalyzes, hafter, he, ?_, ?_⟩
  · rw [hanalyzes.reported, hanalyzes.fits.mem_affected hintact.toConsistent]
    exact hui
  · rw [hanalyzes.reported, hanalyzes.fits.mem_affected hintact.toConsistent]
    exact hapi

/-- Of the two components the one with a contributor gets stable. -/
theorem sample_decided_releases :
    Reachable sampleSetup sampleLinked ∧
    ∃ report v, exec (analyzeRequest sampleSetup sampleRequest.id) sampleLinked = (.ok report, v) ∧
      (Action.reject sampleRequest.id "olga").Passes sampleSetup (run sampleSetup v []) ∧
      "ui" ∈ report.affectedComponents ∧
      ∃ k ∈ (run sampleSetup v []).store.components, k.id = "ui" ∧
        { k with status := .stable } ∈ (step sampleSetup (run sampleSetup v [])
          (.reject sampleRequest.id "olga")).store.components := by
  obtain ⟨found, report, v, w', hanalyzes, -, he, hui, -⟩ := exists_rejected_sampleLinked
  have hpassed :
      (Action.reject sampleRequest.id "olga").Passes sampleSetup (run sampleSetup v []) :=
    ⟨(), congrArg Prod.fst he⟩
  obtain ⟨k, hk, hid, hstable, -⟩ :=
    decided_releases reachable_sampleLinked hanalyzes.answered [] rfl hpassed hui
  exact ⟨reachable_sampleLinked, report, v, hanalyzes.answered, hpassed, hui, k, hk, hid,
    hstable (by decide +kernel)⟩

/-- The one without contributors stays flagged. -/
theorem sample_flag_kept :
    Reachable sampleSetup sampleLinked ∧
    ∃ report v w', exec (analyzeRequest sampleSetup sampleRequest.id) sampleLinked =
        (.ok report, v) ∧
      "api" ∈ report.affectedComponents ∧
      exec (rejectRequest sampleRequest.id "olga") v = (.ok (), w') ∧
      ∃ k ∈ w'.store.components, k.id = "api" ∧ k.status = .flagged := by
  obtain ⟨found, report, v, w', hanalyzes, hv, he, -, hapi⟩ := exists_rejected_sampleLinked
  have hunwatched : ∀ m ∈ sampleLinked.store.contributors, m.component ≠ "api" := by
    decide +kernel
  have hunaffected : "api" ∉ v.store.affectedBy sampleRequest.id := by
    rw [show v = run sampleSetup v [] from rfl,
      hanalyzes.mem_affectedBy reachable_sampleLinked hv [] hapi]
    rintro ⟨m, hm, heq⟩
    exact hunwatched m hm heq
  obtain ⟨k, hk, hid⟩ := hanalyzes.exists_component reachable_sampleLinked.intact.toConsistent hapi
  have hflagged : { k with status := .flagged } ∈ v.store.components := by
    rw [hanalyzes.components]
    exact Store.mem_updateWhere.mpr ⟨k, hk, if_pos (List.contains_iff_mem.mpr (hid ▸ hapi))⟩
  have hcomponents := ((effect_step sampleSetup hv (.reject sampleRequest.id "olga")).decided rfl
    ⟨(), congrArg Prod.fst he⟩).1
  rw [step_eq_of_exec (a := .reject sampleRequest.id "olga") he] at hcomponents
  refine ⟨reachable_sampleLinked, report, v, w', hanalyzes.answered, hapi, he,
    { k with status := .flagged }, ?_, hid, rfl⟩
  rw [hcomponents]
  exact Store.mem_updateWhere.mpr
    ⟨_, hflagged, if_neg fun hp => hunaffected (hid ▸ List.contains_iff_mem.mp hp)⟩

end ChangeImpact
