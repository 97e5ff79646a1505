import ChangeImpact.Proofs.Store.Content
import ChangeImpact.Proofs.Workflow.Authority
import Mathlib.Logic.Relation

/-!
# The effect of an action on the content

What an action can do with the content of the tables, the components, the found impacts
and the objects, said once for all actions. Most actions leave all of it alone; the rest
enter a row, change the objects, take files over, store an analysis or write a decision.
What holds of the content over a whole run follows from this relation alone.
-/

namespace ChangeImpact

open Operation

/-! ## Actions that leave the content alone -/

/-- Nothing changes but requests, contributors, edges, symbols and what is said about impacts. -/
structure World.Alike (w w' : World) : Prop where
  store : w.store.Alike w'.store
  objects : w'.objects = w.objects

namespace World.Alike

variable {u v w : World}

theorem of_eq (hs : v.store = w.store) (ho : v.objects = w.objects) : w.Alike v :=
  ⟨hs ▸ refl_of Store.Alike w.store, ho⟩

theorem refl (w : World) : w.Alike w := of_eq rfl rfl

theorem trans (huv : u.Alike v) (hvw : v.Alike w) : u.Alike w :=
  ⟨trans_of Store.Alike huv.store hvw.store, hvw.objects.trans huv.objects⟩

end World.Alike

theorem World.Untouched.alike {w w' : World} (h : w.Untouched w') : w.Alike w' :=
  .of_eq h.store h.objects

section Alike

variable {w : World}

theorem createRequest_alike (w : World) (project component author title description : String)
    (submitted : Bool) :
    Yields (createRequest project component author title description submitted) w w.Alike
      fun _ => w.Alike := by
  refine Yields.need (fun _ => .refl w) fun c _ => ?_
  refine Yields.now (Yields.freshId ?_)
  refine Yields.write (.of_eq rfl rfl) fun s hs => ?_
  exact ⟨Store.alike_insertRequest hs, rfl⟩

theorem submitRequest_alike (w : World) (id user : String) :
    Yields (submitRequest id user) w w.Alike fun _ => w.Alike := by
  refine Yields.need (fun _ => .refl w) fun r _ => ?_
  refine Yields.require (fun _ => .refl w) fun _ => ?_
  refine Yields.require (fun _ => .refl w) fun _ => ?_
  refine Yields.now (Yields.write (.of_eq rfl rfl) fun s hs => ?_)
  exact ⟨Store.alike_setStatus hs, rfl⟩

theorem reEvaluate_alike (w : World) (id : String) :
    Yields (reEvaluate id) w w.Alike fun _ => w.Alike := by
  refine Yields.need (fun _ => .refl w) fun r _ => ?_
  split
  · exact .refl w
  · refine Yields.read (fun _ => .refl w) fun is _ => ?_
    split
    · exact .refl w
    · refine Yields.now (Yields.write (.of_eq rfl rfl) fun s hs => Yields.publish ?_)
      exact ⟨Store.alike_setStatus hs, rfl⟩

theorem Resolved.alike {f : Instant → Impact → Impact} {id user : String} {w' : World}
    (h : Resolved f id user w w') (hf : ∀ time i, (f time i).found = i.found) : w.Alike w' := by
  obtain ⟨i, -, -, -, -, -, ⟨time, time', hs⟩, ho⟩ := h
  refine ⟨?_, ho⟩
  rw [hs]
  exact trans_of Store.Alike (Store.alike_updateImpacts _ (hf time))
    (Store.alike_review _ i.change time')

theorem sweep_alike (w : World) (time : Instant) (threshold : Int) :
    Yields (sweep time threshold) w w.Alike fun _ => w.Alike := by
  rw [sweep]
  cases time.before? threshold with
  | none => exact .refl w
  | some cutoff =>
    refine Yields.read (fun _ => .refl w) fun found _ => ?_
    refine Yields.bind (Yields.filterM (I := w.Alike) (.refl w) fun x _ v hv => ?_)
      fun ys v hv => ?_
    · show Yields (confirm time x.1) v w.Alike fun _ => w.Alike
      rw [confirm, Yields, exec_writeWith]
      exact hv.trans ⟨Store.alike_updateImpacts _ fun _ => rfl, rfl⟩
    · refine Yields.bind (Yields.forM hv fun id _ v hv => ?_) fun _ _ hv => hv
      exact Yields.bind ((reEvaluate_alike v id).imp (fun _ hu => hv.trans hu)
        fun _ _ hu => hv.trans hu) fun _ _ hu => hu

theorem enrichRequest_alike (w : World) (setup : Setup) (job : EnrichmentJob) :
    Yields (enrichRequest setup job) w w.Alike fun _ => w.Alike := by
  rw [enrichRequest]
  split
  · exact .refl w
  · dsimp only
    split
    · exact .of_eq rfl rfl
    · refine Yields.read (fun _ => .refl w) fun is _ => ?_
      refine Yields.bind (Yields.forM (I := w.Alike) (.refl w) fun i _ v hv => ?_) fun _ v hv => ?_
      · refine Yields.read (fun _ => hv) fun files _ => Yields.write_last hv fun s hs => ?_
        cases hs
        exact hv.trans ⟨Store.alike_updateImpacts _ fun _ => rfl, rfl⟩
      · exact ⟨hv.store, hv.objects⟩

/-- In an intact store indexing fails only if the project is not there. -/
theorem indexProject_alike (h : w.store.Intact) (setup : Setup) (project : String) :
    Yields (indexProject setup project) w w.Alike fun _ => w.Alike := by
  by_cases hp : ∃ p, w.store.project? project = .ok (some p)
  · obtain ⟨p, hp⟩ := hp
    refine Yields.imp (indexProject_succeeds h.toConsistent setup hp
      (Store.legible_of_readable h.readable project)) (fun _ hf => hf.elim) ?_
    rintro report w' ⟨hobjects, hstore⟩
    exact ⟨hstore ▸ Store.alike_index _ _ _ _, hobjects⟩
  · exact Yields.need (fun _ => .refl w) fun p hp' => absurd ⟨p, hp'⟩ hp

end Alike

/-! ## Entering rows -/

/-- What entering a row does. -/
def Row.Enters (s t : Store) : Row → Prop
  | project p => t = { s with projects := s.projects ++ [p] }
  | component c => t = { s with components := s.components ++ [c] }
  | componentStatus ids status => t = s.setComponentStatus ids status
  | file f => ∃ id, s.upsertFile f = .ok (id, t)
  | draft d => t = { s with drafts := s.drafts ++ [d] }
  | contributor _ | edge .. => s.Alike t

theorem Row.enters_of_write {s t : Store} {row : Row} (h : row.write s = .ok t) :
    row.Enters s t := by
  cases row with
  | project p =>
    obtain ⟨-, h⟩ := Store.demand_bind_ok.mp h
    cases h
    rfl
  | component c =>
    obtain ⟨-, h⟩ := Store.demand_bind_ok.mp h
    obtain ⟨-, h⟩ := Store.demand_bind_ok.mp h
    obtain ⟨-, h⟩ := Store.demand_bind_ok.mp h
    cases h
    rfl
  | componentStatus ids status =>
    cases h
    rfl
  | contributor c => exact Store.alike_addContributor h
  | file f =>
    cases hf : s.upsertFile f with
    | error e =>
      rw [write, hf] at h
      cases h
    | ok found =>
      rw [write, hf] at h
      cases h
      exact ⟨found.1, hf⟩
  | draft d =>
    obtain ⟨-, h⟩ := Store.demand_bind_ok.mp h
    obtain ⟨-, h⟩ := Store.demand_bind_ok.mp h
    cases h
    rfl
  | edge owner e => exact Store.alike_upsertEdge h

/-! ## Taking files over -/

/-- The row of a file that is taken over. -/
def loadedFile (project : String) (owner : Option String) (f : ScannedFile) (id : String) :
    ProjectFile where
  id := id
  project := project
  component := owner
  path := f.path
  language := some f.language.name
  size := f.content.length
  storageKey := fileKey project f.path
  hash := some (Digest.sha256 f.content)

/-- The content of a file is stored and then its row, unless that is refused. -/
structure World.TakesOver (project : String) (owner : Option String) (f : ScannedFile)
    (w w' : World) : Prop where
  stored : w.objects.put (fileKey project f.path) f.content = .ok w'.objects
  written : ∃ id, (∃ k, w.store.upsertFile (loadedFile project owner f id) = .ok (k, w'.store)) ∨
    (∀ x, w.store.upsertFile (loadedFile project owner f id) ≠ .ok x) ∧ w'.store = w.store

theorem loadFile_yields (w : World) (project : String) (owner : Option String) (f : ScannedFile) :
    Yields (loadFile project owner f) w (fun v => v = w ∨ w.TakesOver project owner f v)
      fun _ v => w.TakesOver project owner f v := by
  rw [loadFile, Yields, exec_bind, exec_store]
  cases hput : w.objects.put (fileKey project f.path) f.content with
  | error e => exact Or.inl rfl
  | ok o =>
    dsimp only
    rw [exec_bind, exec_freshId]
    dsimp only
    rw [exec_bind, exec_writeWith]
    cases hrow : w.store.upsertFile (loadedFile project owner f (idOf w.issued)) with
    | error e =>
      have hrefused (x) :
          w.store.upsertFile (loadedFile project owner f (idOf w.issued)) ≠ .ok x := by
        intro hx
        cases hrow.symm.trans hx
      simp only [loadedFile] at hrow
      simp only [hrow]
      exact Or.inr ⟨hput, _, Or.inr ⟨hrefused, rfl⟩⟩
    | ok x =>
      have hwritten : w.store.upsertFile (loadedFile project owner f (idOf w.issued)) =
        .ok (x.1, x.2) := hrow
      simp only [loadedFile] at hrow
      simp only [hrow]
      exact ⟨hput, _, Or.inl ⟨_, hwritten⟩⟩

/-- Files that a scan finds are taken over one after the other. -/
def World.Loads (setup : Setup) (project : String) (tree : FileTree)
    (owner : String → Option String) : World → World → Prop :=
  Relation.ReflTransGen fun v v' =>
    ∃ f ∈ Scan.run tree "" setup.settings.excludeSensitive,
      v.TakesOver project (owner f.path) f v'

theorem loadDirectory_yields (w : World) (setup : Setup) (project : String) (tree : FileTree)
    (owner : String → Option String) :
    Yields (loadDirectory setup project tree owner) w (World.Loads setup project tree owner w)
      fun _ => World.Loads setup project tree owner w := by
  refine Yields.bind (Yields.forM .refl fun f hf v hv => ?_) fun _ _ hv => hv
  refine (loadFile_yields v project (owner f.path) f).imp ?_ fun _ u hu => hv.tail ⟨f, hf, hu⟩
  rintro u (rfl | hu)
  · exact hv
  · exact hv.tail ⟨f, hf, hu⟩

/-- Taking a file over writes nothing but files. -/
theorem World.TakesOver.store {project : String} {owner : Option String} {f : ScannedFile}
    {w w' : World} (h : w.TakesOver project owner f w') :
    w'.store = { w.store with files := w'.store.files, damaged := w'.store.damaged } := by
  obtain ⟨id, ⟨k, hrow⟩ | ⟨-, hsame⟩⟩ := h.written
  · exact Store.eq_of_upsertFile hrow
  · rw [hsame]

theorem World.Loads.store {setup : Setup} {project : String} {tree : FileTree}
    {owner : String → Option String} {w w' : World}
    (h : World.Loads setup project tree owner w w') :
    w'.store = { w.store with files := w'.store.files, damaged := w'.store.damaged } := by
  induction h with
  | refl => rfl
  | tail _ hone ih =>
    obtain ⟨f, -, hone⟩ := hone
    rw [hone.store, ih]

/-! ## All actions -/

/-- The request that the action would decide. -/
def Action.decided? : Action → Option String
  | approve request _ | approveAndRebuild request _ | reject request _ => some request
  | _ => none

/-- What an analysis of a request writes and answers. -/
structure Analyzes (setup : Setup) (r : ChangeRequest) (found : Analysis) (report : ImpactReport)
    (w w' : World) : Prop where
  answered : exec (analyzeRequest setup r.id) w = (.ok report, w')
  request : r ∈ w.store.requests
  pending : r.status = .pendingAnalysis
  fits : found.Fits setup w r
  committed : ∃ s time time', w.store.commitAnalysis r.id found.impacts
    (found.affected.map (·.component)) time = .ok (true, s) ∧ w'.store = s.review r.id time'
  objects : w'.objects = w.objects
  reported : report.affectedComponents = found.affected.map (·.component)

/-- What an approval of a request writes, up to the graph. -/
structure Approves (setup : Setup) (r : ChangeRequest) (pairs : List (ProjectFile × Draft))
    (w v w' : World) : Prop where
  request : r ∈ w.store.requests
  ready : r.status = .analysisComplete ∨ r.status = .pendingReview
  promotes : Promotes setup r pairs w v
  alike : v.Alike w'
  requests : w'.store.requests = v.store.requests

/-- What an action can make of a world. -/
inductive Effect (setup : Setup) (w : World) : Action → World → Prop where
  /-- Whatever the action does, it decides no request. -/
  | aside {a : Action} {w' : World} (undecided : ∀ q, a.decided? = some q → ¬a.Passes setup w)
      (alike : w.Alike w') : Effect setup w a w'
  | enter {row : Row} {t : Store} (enters : row.Enters w.store t) :
      Effect setup w (.enter row) { w with store := t }
  | objects {change : Objects → Except Failure Objects} {o : Objects}
      (changed : change w.objects = .ok o) :
      Effect setup w (.objects change) { w with objects := o }
  | load {project : String} {tree : FileTree} {owner : String → Option String} {w' : World}
      (loads : World.Loads setup project tree owner w w') :
      Effect setup w (.load project tree owner) w'
  | analyze {r : ChangeRequest} {found : Analysis} {report : ImpactReport} {w' : World}
      (analyzes : Analyzes setup r found report w w') : Effect setup w (.analyze r.id) w'
  | approve {a : Action} {r : ChangeRequest} {pairs : List (ProjectFile × Draft)} {v w' : World}
      (action : a.approved? = some r.id) (passed : a.Passes setup w)
      (approves : Approves setup r pairs w v w') : Effect setup w a w'
  /-- An approval fails. -/
  | retract {a : Action} {request : String} {w' : World} (action : a.approved? = some request)
      (failed : ¬a.Passes setup w) (retracted : w.Retracted request w') : Effect setup w a w'
  | reject {r : ChangeRequest} {user : String} {w' : World} (request : r ∈ w.store.requests)
      (undecided : r.status.isTerminal = false) (passed : (Action.reject r.id user).Passes setup w)
      (written : ∃ time, w'.store = w.store.commitRejection r.id (w.store.affectedBy r.id) time)
      (objects : w'.objects = w.objects) : Effect setup w (.reject r.id user) w'

section Step

variable {w : World}

theorem analyzeRequest_analyzes (setup : Setup) (h : w.store.Intact) (id : String)
    {report : ImpactReport} {w' : World}
    (he : exec (analyzeRequest setup id) w = (.ok report, w')) :
    ∃ r found, r.id = id ∧ Analyzes setup r found report w w' := by
  obtain ⟨r, hr, rfl, hs, found, hfits, hcommit, hobjects, hreport, -⟩ :=
    (analyzeRequest_yields setup id h.requestIds (fun _ hv => hv) (Or.inl h)).of_ok he
  exact ⟨r, found, rfl, he, hr, hs, hfits, hcommit, hobjects, hreport⟩

/-- A request that is found for an approval is the one that was analysed. -/
theorem ready_of_approved (h : w.store.Intact) {r : ChangeRequest} {user : String}
    {t : Store} (hr : r ∈ w.store.requests) (hat : Approved r.id user w.store t) :
    r.status = .analysisComplete ∨ r.status = .pendingReview := by
  obtain ⟨q, hq, hid, hs, -⟩ := hat
  rwa [h.requestIds.eq_of_key_eq hq hr hid] at hs

theorem not_passes_of_exec {setup : Setup} {a : Action} {e : Failure} {v : World}
    (he : exec (a.operation setup) w = (.error e, v)) : ¬a.Passes setup w := by
  rintro ⟨x, hx⟩
  rw [he] at hx
  cases hx

theorem effect_approve (setup : Setup) (h : w.store.Intact) (request user : String) :
    Effect setup w (.approve request user) (step setup w (.approve request user)) := by
  refine (approveRequest_ends setup request user).world
    (fun _ v he hv => .retract rfl (not_passes_of_exec he) hv) ?_
  rintro outcome v he ⟨hat, r, pairs, hr, hpromotes, -⟩
  obtain ⟨hm, rfl⟩ := Store.mem_of_request? hr
  exact .approve rfl ⟨outcome, congrArg Prod.fst he⟩
    ⟨hm, ready_of_approved h hm hat, hpromotes, .refl v, rfl⟩

/-- The graph is rebuilt after the approval, which leaves the content alone and cannot fail. -/
theorem effect_approveAndRebuild (setup : Setup) (h : w.store.Intact) (request user : String) :
    Effect setup w (.approveAndRebuild request user)
      (step setup w (.approveAndRebuild request user)) := by
  refine Yields.world (R := Effect setup w (.approveAndRebuild request user))
    (P := fun _ v => ∃ r pairs u, r.id = request ∧ Approves setup r pairs w u v)
    (E := w.Retracted request)
    (Yields.need (fun _ => .refl request w) fun r hr => ?_)
    (fun _ v he hv => .retract rfl (not_passes_of_exec he) hv) ?_
  · obtain ⟨hm, rfl⟩ := Store.mem_of_request? hr
    refine Yields.bind (approveRequest_ends setup r.id user) ?_
    rintro outcome u ⟨hat, q, pairs, hq, hpromotes, -⟩
    cases hr.symm.trans hq
    obtain ⟨time, snapshot, hcommit⟩ := hpromotes.written
    refine Yields.bind (rebuildGraph_of_grows h (Store.grows_commitApproval hcommit) hm).yields ?_
    rintro g v rfl
    exact ⟨r, pairs, u, rfl, hm, ready_of_approved h hm hat, hpromotes,
      ⟨Store.alike_withGraph _ _ _, rfl⟩, rfl⟩
  · rintro outcome v he ⟨r, pairs, u, rfl, hv⟩
    exact .approve rfl ⟨outcome, congrArg Prod.fst he⟩ hv

/-- Every action has one of the effects in intact tables. -/
theorem effect_step (setup : Setup) (h : w.store.Intact) (a : Action) :
    Effect setup w a (step setup w a) := by
  have hidle {a : Action} {v : World} (ha : a.decided? = none) (hv : w.Alike v) :
      Effect setup w a v :=
    .aside (fun q hq => nomatch hq.symm.trans ha) hv
  have haside {α : Type} {a : Action} {o : Operation α} (ha : a.decided? = none)
      (ho : Yields o w w.Alike fun _ => w.Alike) : Effect setup w a (exec o w).2 :=
    ho.world (fun _ _ _ hv => hidle ha hv) fun _ _ _ hv => hidle ha hv
  cases a with
  | enter row =>
    exact (Yields.write_last (E := w.Alike) (Q := fun _ => Effect setup w (.enter row)) (.refl w)
      fun t ht => .enter (Row.enters_of_write ht)).world (fun _ _ _ hv => hidle rfl hv)
        fun _ _ _ hv => hv
  | objects change =>
    show Effect setup w (.objects change) (exec (store change) w).2
    rw [exec_store]
    cases hchange : change w.objects with
    | error e => exact hidle rfl (.refl w)
    | ok o => exact .objects hchange
  | create project component author title description submitted =>
    exact haside rfl (createRequest_alike w _ _ _ _ _ _)
  | submit request user => exact haside rfl (submitRequest_alike w _ _)
  | analyze request =>
    refine Yields.world (R := Effect setup w (.analyze request)) (a := analyzeRequest setup request)
      (analyzeRequest_yields setup request h.requestIds (fun _ hv => hv) (Or.inl h))
      (fun _ v _ hv => hidle rfl hv.alike) fun report v he _ => ?_
    obtain ⟨r, found, rfl, hv⟩ := analyzeRequest_analyzes setup h request he
    exact .analyze hv
  | enrich assistant job => exact haside rfl (enrichRequest_alike w _ _)
  | acknowledge impact user =>
    exact (acknowledgeImpact_decides h impact user).world (fun _ v _ hv => hidle rfl hv.alike)
      fun _ v _ hv => hidle rfl (hv.alike fun _ _ => rfl)
  | dismiss impact user =>
    exact (dismissImpact_decides h impact user).world (fun _ v _ hv => hidle rfl hv.alike)
      fun _ v _ hv => hidle rfl (hv.1.alike fun _ _ => rfl)
  | reEvaluate request => exact haside rfl (reEvaluate_alike w request)
  | sweep time threshold => exact haside rfl (sweep_alike w time threshold)
  | autoconfirm =>
    refine haside rfl (Yields.now ((sweep_alike _ _ _).imp (fun _ hv => ?_) fun _ _ hv => ?_))
    · exact ⟨hv.store, hv.objects⟩
    · exact ⟨hv.store, hv.objects⟩
  | approve request user => exact effect_approve setup h request user
  | approveAndRebuild request user => exact effect_approveAndRebuild setup h request user
  | reject request user =>
    refine (rejectRequest_decides w request user).world
      (fun _ v he hv => .aside (fun _ _ => not_passes_of_exec he) hv.alike) ?_
    rintro x v he ⟨r, hr, rfl, hs, -, hwritten, hobjects, -⟩
    exact .reject hr hs ⟨x, congrArg Prod.fst he⟩ hwritten hobjects
  | index project => exact haside rfl (indexProject_alike h setup project)
  | load project tree owner =>
    exact (loadDirectory_yields w setup project tree owner).world (fun _ _ _ hv => .load hv)
      fun _ _ _ hv => .load hv

end Step

end ChangeImpact
