import ChangeImpact.Proofs.Workflow.Found
import ChangeImpact.Proofs.Workflow.Promotion

/-!
# What was analysed when a draft is promoted

An approval promotes the drafts that are active when it runs, while the impacts that the
contributors resolved were found when the request was analysed. The impacts stay those of
the analysis. A promoted draft was compared in that analysis, or it came to the component
later: it was inserted, or its file was uploaded to the component, after the analysis.
-/

namespace ChangeImpact

open Operation

variable {setup : Setup} {w w' : World} {a : Action}

/-! ## Where drafts come from -/

theorem Promotes.drafts_eq {r : ChangeRequest} {pairs : List (ProjectFile × Draft)}
    (h : Promotes setup r pairs w w') : w'.store.drafts = w.store.drafts.map
      (·.promote (pairs.map fun x => promotionOf setup.grammar r.project x.1 x.2)) := by
  obtain ⟨time, snapshot, hcommit⟩ := h.written
  exact Store.drafts_commitApproval hcommit

/-- What an action makes of the drafts. -/
theorem Effect.drafts (h : Effect setup w a w') :
    w'.store.drafts = w.store.drafts ∨
      (∃ d, a = .enter (.draft d) ∧ w'.store.drafts = w.store.drafts ++ [d]) ∨
        ∃ r pairs v, a.approved? = some r.id ∧ Approves setup r pairs w v w' ∧
          w'.store.drafts = w.store.drafts.map
            (·.promote (pairs.map fun x => promotionOf setup.grammar r.project x.1 x.2)) := by
  cases h with
  | aside _ alike => exact Or.inl alike.store.drafts
  | @enter row t enters =>
    cases row with
    | draft d =>
      cases enters
      exact Or.inr (Or.inl ⟨d, rfl, rfl⟩)
    | file f =>
      obtain ⟨id, hrow⟩ := enters
      exact Or.inl ((congrArg Store.drafts (Store.eq_of_upsertFile hrow)).trans rfl)
    | contributor c => exact Or.inl enters.drafts
    | edge project e => exact Or.inl enters.drafts
    | _ =>
      cases enters
      exact Or.inl rfl
  | objects => exact Or.inl rfl
  | load loads => exact Or.inl ((congrArg Store.drafts loads.store).trans rfl)
  | analyze analyzes => exact Or.inl analyzes.sameContent.drafts
  | @approve _ r pairs v _ action passed approves =>
    exact Or.inr (Or.inr ⟨r, pairs, v, action, approves,
      approves.alike.store.drafts.trans approves.promotes.drafts_eq⟩)
  | retract _ _ retracted => exact Or.inl (congrArg Store.drafts retracted.store)
  | reject _ _ _ written =>
    obtain ⟨time, hstore⟩ := written
    exact Or.inl ((congrArg Store.drafts hstore).trans rfl)

/-- An active draft was active before, or it was just inserted. -/
theorem Effect.draft (h : Effect setup w a w') {d : Draft} (hd : d ∈ w'.store.drafts)
    (hactive : d.active = true) : d ∈ w.store.drafts ∨ a = .enter (.draft d) := by
  rcases h.drafts with heq | ⟨e, rfl, heq⟩ | ⟨r, pairs, v, -, -, heq⟩
  · exact Or.inl (heq ▸ hd)
  · rw [heq] at hd
    refine (List.mem_append.mp hd).imp_right fun he => ?_
    rw [List.mem_singleton.mp he]
  · rw [heq] at hd
    obtain ⟨e, he, rfl⟩ := List.mem_map.mp hd
    rcases e.promote_cases (pairs.map fun x => promotionOf setup.grammar r.project x.1 x.2) with
      ⟨-, hdone⟩ | hsame
    · rw [hdone] at hactive
      cases hactive
    · exact Or.inl (hsame.symm ▸ he)

theorem draft_origin (h : w.store.Intact) (actions : List Action) {d : Draft}
    (hd : d ∈ (run setup w actions).store.drafts) (hactive : d.active = true) :
    d ∈ w.store.drafts ∨ Action.enter (.draft d) ∈ actions := by
  induction actions using List.reverseRecOn with
  | nil => exact Or.inl hd
  | append_singleton actions a ih =>
    rw [run_append] at hd
    rcases (effect_step setup ((grows_run actions).intact h) a).draft hd hactive with hd | rfl
    · exact (ih hd).imp_right (List.mem_append_left _)
    · exact Or.inr (List.mem_append_right _ (List.mem_singleton_self _))

/-- Only an approval deactivates a draft, one of its request. -/
theorem Effect.promoted (h : Effect setup w a w') (hw : w.store.Consistent)
    (hw' : w'.store.Consistent) {d : Draft} (hd : d ∈ w.store.drafts) (hactive : d.active = true)
    (hd' : { d with active := false } ∈ w'.store.drafts) :
    ∃ r pairs v, a.approved? = some r.id ∧ Approves setup r pairs w v w' ∧
      d ∈ w.store.activeDrafts r.author r.component := by
  have hgone (hstay : d ∈ w'.store.drafts) : False := by
    have heq : d = { d with active := false } := hw'.draftIds.eq_of_key_eq hstay hd' rfl
    rw [heq] at hactive
    cases hactive
  rcases h.drafts with heq | ⟨e, -, heq⟩ | ⟨r, pairs, v, haction, happroves, heq⟩
  · exact (hgone (heq ▸ hd)).elim
  · exact (hgone (heq ▸ List.mem_append_left _ hd)).elim
  · refine ⟨r, pairs, v, haction, happroves, ?_⟩
    have hmem := List.mem_map_of_mem (f := Draft.promote
      (pairs.map fun x => promotionOf setup.grammar r.project x.1 x.2)) hd
    rw [← heq] at hmem
    rcases d.promote_cases (pairs.map fun x => promotionOf setup.grammar r.project x.1 x.2) with
      ⟨⟨p, hp, hid⟩, -⟩ | hsame
    · obtain ⟨x, hx, rfl⟩ := List.mem_map.mp hp
      have hxd := happroves.promotes.mem_activeDrafts hx
      rwa [hw.draftIds.eq_of_key_eq (Store.mem_activeDrafts.mp hxd).1 hd hid] at hxd
    · exact (hgone (hsame ▸ hmem)).elim

/-! ## Where files come from -/

/-- Two rows of the same file on the same component. -/
structure ProjectFile.Stays (f g : ProjectFile) : Prop where
  id : g.id = f.id
  project : g.project = f.project
  path : g.path = f.path
  component : g.component = f.component

theorem ProjectFile.Stays.refl (f : ProjectFile) : f.Stays f := ⟨rfl, rfl, rfl, rfl⟩

theorem ProjectFile.Stays.trans {f g k : ProjectFile} (h : f.Stays g) (h' : g.Stays k) :
    f.Stays k :=
  ⟨h'.id.trans h.id, h'.project.trans h.project, h'.path.trans h.path,
    h'.component.trans h.component⟩

theorem ProjectFile.stays_of_unparsed_eq {f g : ProjectFile} (h : f.unparsed = g.unparsed) :
    f.Stays g := by
  have hcolumn {α : Type} (column : ProjectFile → α) : column g.unparsed = column f.unparsed := by
    rw [h]
  exact ⟨hcolumn (·.id), hcolumn (·.project), hcolumn (·.path), hcolumn (·.component)⟩

/-- The action uploads a file at a path of a project to a component, if it finds one there. -/
def Action.Uploads (project path : String) (component : Option String) : Action → Prop
  | enter (.file f) => f.project = project ∧ f.path = path ∧ f.component = component
  | load loaded _ owner => loaded = project ∧ owner path = component
  | _ => False

theorem World.Loads.file {project : String} {tree : FileTree} {owner : String → Option String}
    (h : World.Loads setup project tree owner w w') {f : ProjectFile}
    (hf : f ∈ w'.store.files) :
    f ∈ w.store.files ∨ f.project = project ∧ owner f.path = f.component := by
  induction h with
  | refl => exact Or.inl hf
  | tail _ hone ih =>
    obtain ⟨g, -, hone⟩ := hone
    obtain ⟨id, ⟨k, hrow⟩ | ⟨-, hsame⟩⟩ := hone.written
    · rcases Store.mem_files_upsertFile hrow hf with ⟨hold, -⟩ | ⟨j, rfl⟩
      · exact ih hold
      · exact Or.inr ⟨rfl, rfl⟩
    · exact ih (hsame ▸ hf)

/-- A file was on its component before, or it was just uploaded to it. -/
theorem Effect.file (h : Effect setup w a w') {f : ProjectFile} (hf : f ∈ w'.store.files) :
    (∃ g ∈ w.store.files, g.Stays f) ∨ a.Uploads f.project f.path f.component := by
  have hcontent {s t : Store} (hst : s.SameContent t) {f : ProjectFile} (hf : f ∈ t.files) :
      ∃ g ∈ s.files, g.Stays f := by
    obtain ⟨g, hg, heq⟩ := hst.exists_file hf
    exact ⟨g, hg, ProjectFile.stays_of_unparsed_eq heq⟩
  cases h with
  | aside _ alike => exact Or.inl (hcontent alike.store.toSameContent hf)
  | @enter row t enters =>
    cases row with
    | file g =>
      obtain ⟨id, hrow⟩ := enters
      rcases Store.mem_files_upsertFile hrow hf with ⟨hold, -⟩ | ⟨k, rfl⟩
      · exact Or.inl ⟨f, hold, .refl f⟩
      · exact Or.inr ⟨rfl, rfl, rfl⟩
    | contributor c => exact Or.inl (hcontent enters.toSameContent hf)
    | edge project e => exact Or.inl (hcontent enters.toSameContent hf)
    | _ =>
      cases enters
      exact Or.inl ⟨f, hf, .refl f⟩
  | objects => exact Or.inl ⟨f, hf, .refl f⟩
  | load loads =>
    rcases loads.file hf with hold | ⟨rfl, howner⟩
    · exact Or.inl ⟨f, hold, .refl f⟩
    · exact Or.inr ⟨rfl, howner⟩
  | analyze analyzes => exact Or.inl (hcontent analyzes.sameContent hf)
  | @approve _ r pairs v _ action passed approves =>
    obtain ⟨g, hg, hgf⟩ := hcontent approves.alike.store.toSameContent hf
    rw [approves.promotes.files_eq] at hg
    obtain ⟨k, hk, rfl⟩ := List.mem_map.mp hg
    exact Or.inl ⟨k, hk, ProjectFile.Stays.trans ⟨id_promotedFile, project_promotedFile,
      path_promotedFile, component_promotedFile⟩ hgf⟩
  | retract _ _ retracted => exact Or.inl ⟨f, retracted.store ▸ hf, .refl f⟩
  | reject _ _ _ written =>
    obtain ⟨time, hstore⟩ := written
    rw [hstore] at hf
    exact Or.inl ⟨f, hf, .refl f⟩

theorem file_origin (h : w.store.Intact) (actions : List Action) {f : ProjectFile}
    (hf : f ∈ (run setup w actions).store.files) :
    (∃ g ∈ w.store.files, g.Stays f) ∨
      ∃ a ∈ actions, a.Uploads f.project f.path f.component := by
  induction actions using List.reverseRecOn generalizing f with
  | nil => exact Or.inl ⟨f, hf, .refl f⟩
  | append_singleton actions a ih =>
    rw [run_append] at hf
    rcases (effect_step setup ((grows_run actions).intact h) a).file hf with ⟨g, hg, hgf⟩ | hup
    · rcases ih hg with ⟨k, hk, hkg⟩ | ⟨b, hb, hup⟩
      · exact Or.inl ⟨k, hk, hkg.trans hgf⟩
      · rw [← hgf.project, ← hgf.path, ← hgf.component] at hup
        exact Or.inr ⟨b, List.mem_append_left _ hb, hup⟩
    · exact Or.inr ⟨a, List.mem_append_right _ (List.mem_singleton_self _), hup⟩

/-! ## Promoted drafts -/

/-- What can be said of a draft that is promoted for a request in `w`. The request was analysed
in `v`, and since then the actions `later` were done. -/
structure Draft.Reviewed (setup : Setup) (v : World) (later : List Action) (w : World)
    (r : ChangeRequest) (found : Analysis) (d : Draft) : Prop where
  analyzes : ∃ report, Analyzes setup r found report v (step setup v (.analyze r.id))
  /-- The impacts are those of the analysis. -/
  impacts : w.store.foundOn r.id = found.impacts.map (·.found)
  /-- The draft was compared in the analysis, unless it came to the component since. -/
  compared : ∃ f, w.store.Drafted r f d ∧
    ((∃ g, v.store.Drafted r g d ∧ compareDraft setup.grammar v.objects g d ∈ found.drafted) ∨
      .enter (.draft d) ∈ later ∨ ∃ b ∈ later, b.Uploads f.project f.path (some r.component))

/-- A draft that is active after an analysis and some actions was compared in the analysis, or
the actions brought it to the component. -/
theorem Analyzes.compared {r : ChangeRequest} {found : Analysis} {report : ImpactReport}
    {v v' : World} (h : Analyzes setup r found report v v') (hv : v.store.Consistent)
    (hv' : v'.store.Intact) (later : List Action) {f : ProjectFile} {d : Draft}
    (hd : (run setup v' later).store.Drafted r f d) :
    (∃ g, v.store.Drafted r g d ∧ compareDraft setup.grammar v.objects g d ∈ found.drafted) ∨
      .enter (.draft d) ∈ later ∨ ∃ b ∈ later, b.Uploads f.project f.path (some r.component) := by
  rcases draft_origin hv' later hd.draft hd.active with hdraft | hentered
  · rcases file_origin hv' later hd.file with ⟨g', hg', hgf⟩ | huploaded
    · obtain ⟨g, hg, heq⟩ := h.sameContent.exists_file hg'
      have hstays : g.Stays f := (ProjectFile.stays_of_unparsed_eq heq).trans hgf
      have hdrafted : v.store.Drafted r g d :=
        ⟨h.sameContent.drafts ▸ hdraft, hd.author, hd.active, hg, hstays.id.symm.trans hd.named,
          hstays.component.symm.trans hd.component⟩
      exact Or.inl ⟨g, hdrafted, (h.fits.mem_drafted hv).mpr ⟨g, d, hdrafted, rfl⟩⟩
    · rw [hd.component] at huploaded
      exact Or.inr (Or.inr huploaded)
  · exact Or.inr (Or.inl hentered)

/-- A draft is promoted for a request that was analysed before, and its impacts are those of that
analysis. The analysis compared the draft, unless the draft was inserted afterwards or its file
was uploaded to the component afterwards. -/
theorem promoted_reviewed (h : Reachable setup w) {request : String}
    (hwaits : ∀ q ∈ w.store.requests, q.id = request → q.status.isWaiting = true)
    (actions : List Action) (ha : a.approved? = some request) {d : Draft}
    (hd : d ∈ (run setup w actions).store.drafts) (hactive : d.active = true)
    (hd' : { d with active := false } ∈ (step setup (run setup w actions) a).store.drafts) :
    ∃ earlier later r found, actions = earlier ++ .analyze request :: later ∧ r.id = request ∧
      d.Reviewed setup (run setup w earlier) later (run setup w actions) r found := by
  have hrun := (h.run actions).intact
  obtain ⟨q, pairs, v, haction, happroves, hmem⟩ := (effect_step setup hrun a).promoted
    hrun.toConsistent ((h.run actions).step a).intact.toConsistent hd hactive hd'
  obtain rfl : q.id = request := Option.some.inj (haction.symm.trans ha)
  have hready : q.status.isReady = true := by
    rcases happroves.ready with hs | hs
    · rw [hs]; rfl
    · rw [hs]; rfl
  obtain ⟨earlier, later, r, found, report, heq, hid, hauthor, hcomponent, hanalyzes, hfound⟩ :=
    run_analysed h actions hwaits happroves.request hready
  obtain ⟨-, hdauthor, -, f, hf, hfile, hfcomponent⟩ := Store.mem_activeDrafts.mp hmem
  have hdrafted : (run setup w actions).store.Drafted r f d :=
    ⟨hd, hdauthor.trans hauthor.symm, hactive, hf, hfile, hfcomponent.trans (by rw [hcomponent])⟩
  refine ⟨earlier, later, r, found, heq, hid, ⟨report, hid ▸ hanalyzes⟩, hid ▸ hfound, f, hdrafted,
    ?_⟩
  rw [heq, run_append] at hdrafted
  exact hanalyzes.compared (h.run earlier).intact.toConsistent
    ((h.run earlier).step (.analyze q.id)).intact later hdrafted

/-- The analysed draft of the small project is promoted when the owner approves. -/
theorem sample_promoted_reviewed :
    Reachable sampleSetup sampleWorld ∧ sampleDraft ∈ sampleWorld.store.drafts ∧
    ∃ earlier later r found,
      [.analyze sampleRequest.id] = earlier ++ Action.analyze sampleRequest.id :: later ∧
      r.id = sampleRequest.id ∧ sampleDraft.Reviewed sampleSetup
        (run sampleSetup sampleWorld earlier) later
        (run sampleSetup sampleWorld [.analyze sampleRequest.id]) r found := by
  have hwaits : ∀ q ∈ sampleWorld.store.requests, q.id = sampleRequest.id →
      q.status.isWaiting = true := by
    decide +kernel
  exact ⟨reachable_sampleWorld, by decide +kernel,
    promoted_reviewed (a := .approve sampleRequest.id "olga") reachable_sampleWorld hwaits
      [.analyze sampleRequest.id] rfl (by decide +kernel) rfl (by decide +kernel)⟩

/-- A draft of the file by another user. -/
def sampleLate : Draft where
  id := "d2"
  file := "f1"
  author := "udo"
  content := "newer"
  createdAt := ⟨1⟩

/-- The small project with a request of that user, who has not drafted anything. -/
def sampleBare : World := step sampleSetup sampleWorld (.create "shop" "core" "udo" "Rates" "" true)

/-- The draft comes after the analysis of that request. -/
def sampleOutrun : World :=
  run sampleSetup sampleBare [.analyze (idOf 1), .enter (.draft sampleLate)]

/-- The draft is promoted, and no analysis saw it. -/
theorem sample_promoted_late :
    Reachable sampleSetup sampleBare ∧
    (∃ report, (exec (analyzeRequest sampleSetup (idOf 1)) sampleBare).1 = .ok report) ∧
    sampleLate ∉ sampleBare.store.drafts ∧ sampleLate ∈ sampleOutrun.store.drafts ∧
    ∃ outcome w,
      exec (approveRequest sampleSetup (idOf 1) "olga") sampleOutrun = (.ok outcome, w) ∧
      { sampleLate with active := false } ∈ w.store.drafts ∧
      ∃ f ∈ w.store.files, w.objects.get? f.storageKey = some (Utf8.encode sampleLate.content) := by
  obtain ⟨report, hanalyzed⟩ := exec_eq_ok_of_isSome (w := sampleBare)
    (a := analyzeRequest sampleSetup (idOf 1)) (by decide +kernel)
  obtain ⟨outcome, happroved⟩ := exec_eq_ok_of_isSome (w := sampleOutrun)
    (a := approveRequest sampleSetup (idOf 1) "olga") (by decide +kernel)
  exact ⟨reachable_sampleWorld.step _, ⟨report, congrArg Prod.fst hanalyzed⟩, by decide +kernel,
    by decide +kernel, outcome, _, happroved, by decide +kernel, by decide +kernel⟩

end ChangeImpact
