import ChangeImpact.Proofs.Objects.Stored
import ChangeImpact.Proofs.Workflow.News
import ChangeImpact.Proofs.Workflow.Outcomes
import ChangeImpact.Proofs.Workflow.Run

/-!
# How decisions end

An approval stores the drafts first and writes the tables afterwards. When a draft is
refused or the tables cannot be written, what was stored is taken back; the objects
are then what they were, provided that objects can be removed and that nothing was
stored before under the keys of the new revisions. Once the approval is written the
graph can be rebuilt without a failure.
-/

namespace ChangeImpact

open Operation

/-! ## Taking back what was stored -/

section Objects

variable {o : Objects} {contents : List (String × Bytes)}

/-- Storing objects changes nothing but the entries under the stored keys. -/
private theorem filter_putAll (p : String × Bytes → Bool)
    (hp : ∀ key ∈ (putAll contents o).1, ∀ data, p (key, data) = false) :
    (putAll contents o).2.2.entries.filter p = o.entries.filter p := by
  induction contents generalizing o with
  | nil => rfl
  | cons c contents ih =>
    obtain ⟨key, data⟩ := c
    rw [putAll] at hp ⊢
    cases hput : o.put key data with
    | error e => rfl
    | ok o' =>
      simp only [hput] at hp ⊢
      rw [ih fun k hk => hp k (List.mem_cons_of_mem _ hk)]
      rw [Objects.put] at hput
      split at hput
      · cases hput
      · cases hput
        exact Ordered.filter_alter p fun v => hp key (List.mem_cons_self ..) v

private theorem refusals_putAll (contents : List (String × Bytes)) (o : Objects) :
    (putAll contents o).2.2.refusesPut = o.refusesPut ∧
      (putAll contents o).2.2.refusesDelete = o.refusesDelete := by
  induction contents generalizing o with
  | nil => exact ⟨rfl, rfl⟩
  | cons c contents ih =>
    obtain ⟨key, data⟩ := c
    rw [putAll]
    cases hput : o.put key data with
    | error e => exact ⟨rfl, rfl⟩
    | ok o' =>
      rw [Objects.put] at hput
      split at hput
      · cases hput
      · cases hput
        exact ih _

private theorem removeAll_eq {keys : List String} (hd : ∀ key, o.refusesDelete key = false) :
    removeAll keys o = { o with entries := o.entries.filter fun e => !keys.contains e.1 } := by
  induction keys generalizing o with
  | nil => simp [removeAll]
  | cons key keys ih =>
    have hone : o.delete key = .ok { o with entries := o.entries.filter (·.1 ≠ key) } := by
      rw [Objects.delete, hd key]
      rfl
    rw [removeAll, List.foldl_cons, hone]
    refine (ih (o := { o with entries := o.entries.filter (·.1 ≠ key) }) hd).trans ?_
    rw [List.filter_filter]
    congr 1
    apply List.filter_congr
    intro e _
    by_cases he : e.1 = key
    · simp [he]
    · simp [he]

/-- What was stored under keys that were free is taken back without a trace. -/
theorem removeAll_putAll (hd : ∀ key, o.refusesDelete key = false)
    (hfree : ∀ c ∈ contents, o.get? c.1 = none) :
    removeAll (putAll contents o).1 (putAll contents o).2.2 = o := by
  have hr := refusals_putAll contents o
  rw [removeAll_eq fun key => by rw [hr.2, hd key], filter_putAll, hr.1, hr.2]
  · have hall : o.entries.filter (fun e => !(putAll contents o).1.contains e.1) = o.entries := by
      rw [List.filter_eq_self]
      intro e he
      rw [Bool.not_eq_true', ← Bool.not_eq_true, List.contains_iff_mem]
      intro hk
      obtain ⟨c, hc, hkey⟩ := List.mem_map.mp (mem_map_of_mem_putAll hk)
      have hnone := hfree c hc
      rw [Objects.get?, Ordered.find?, Option.map_eq_none_iff, List.find?_eq_none] at hnone
      exact hnone e he (decide_eq_true hkey.symm)
    rw [hall]
  · intro key hk data
    rw [Bool.not_eq_false', List.contains_iff_mem]
    exact hk

end Objects

/-! ## Approval -/

variable {w : World}

/-- Objects can be removed, and there are none yet under the keys at which an approval of
the request would store the author's drafts. -/
def World.TakesBack (w : World) (id : String) : Prop :=
  (∀ key, w.objects.refusesDelete key = false) ∧
    ∀ r ∈ w.store.requests, r.id = id → ∀ d ∈ w.store.activeDrafts r.author r.component,
      ∀ f ∈ w.store.files, f.id = d.file →
        w.objects.get? (revisionKey r.project d.id f.path) = none

/-- The world after a failed approval: the tables and events are as before, and so are the
objects if `clean` holds. -/
structure World.Restored (clean : Prop) (w w' : World) : Prop where
  store : w'.store = w.store
  events : w'.events = w.events
  objects : clean → w'.objects = w.objects

/-- The world after a failed approval of a request: what was stored under the keys of the author's
drafts is removed again as far as that is possible. -/
structure World.Retracted (id : String) (w w' : World) : Prop where
  store : w'.store = w.store
  events : w'.events = w.events
  objects : ∃ contents : List (String × Bytes),
    (∀ c ∈ contents, ∃ r ∈ w.store.requests, r.id = id ∧
      ∃ d ∈ w.store.activeDrafts r.author r.component, ∃ f ∈ w.store.files, f.id = d.file ∧
        c.1 = revisionKey r.project d.id f.path) ∧
    w'.objects = removeAll (putAll contents w.objects).1 (putAll contents w.objects).2.2

theorem World.Retracted.refl (id : String) (w : World) : w.Retracted id w :=
  ⟨rfl, rfl, [], fun _ hc => absurd hc List.not_mem_nil, rfl⟩

theorem World.Retracted.restored {id : String} {w w' : World} (h : w.Retracted id w') :
    World.Restored (w.TakesBack id) w w' := by
  obtain ⟨contents, hkeys, hobjects⟩ := h.objects
  refine ⟨h.store, h.events, fun hclean =>
    hobjects.trans (removeAll_putAll hclean.1 fun c hc => ?_)⟩
  obtain ⟨r, hr, hid, d, hd, f, hf, hfile, hkey⟩ := hkeys c hc
  exact hkey ▸ hclean.2 r hr hid d hd f hf hfile

/-- What was stored is removed again when the tables cannot be written. -/
theorem storeAndCommit_ends (contents : List (String × Bytes)) (commit : ApprovalCommit) :
    Yields (storeAndCommit contents commit) w
      (fun w' => w'.store = w.store ∧ w'.events = w.events ∧
        w'.objects = removeAll (putAll contents w.objects).1 (putAll contents w.objects).2.2)
      fun snapshot w' => (putAll contents w.objects).2 = (none, w'.objects) ∧
        w.store.commitApproval commit snapshot = .ok w'.store ∧ w'.events = w.events := by
  rw [Yields, exec_storeAndCommit]
  rcases putAll contents w.objects with ⟨keys, refusal, o⟩
  cases refusal with
  | some e => exact ⟨rfl, rfl, rfl⟩
  | none =>
    dsimp only
    cases hcommit : w.store.commitApproval commit (idOf w.issued) with
    | error e => exact ⟨rfl, rfl, rfl⟩
    | ok s => exact ⟨rfl, hcommit, rfl⟩

theorem notifyDecision_succeeds (request : ChangeRequest) (impacts : List Impact)
    (notice : Notice) :
    Succeeds (notifyDecision request impacts notice) w fun _ w' =>
      w'.store = w.store ∧ w'.objects = w.objects ∧ w'.events = w.events ++
        (Ordered.distinct (request.author :: impacts.map (·.contributor))).map
          (⟨·, notice, request.id⟩) := by
  rw [notifyDecision, Succeeds, Yields, exec_forM_publish]
  exact ⟨rfl, rfl, rfl⟩

/-- A decision is told to the author and the contributors of the listed impacts. -/
theorem Store.news_of_impactsOf {s : Store} {r : ChangeRequest} {impacts : List Impact}
    (h : s.impactsOf r.id = .ok impacts) {notice : Notice}
    (hn : notice = .approved ∨ notice = .rejected) :
    (Ordered.distinct (r.author :: impacts.map (·.contributor))).map (⟨·, notice, r.id⟩) =
      (s.dossier r).news notice := by
  rw [Ordered.distinct_cons, Store.eq_of_readRows h]
  rcases hn with rfl | rfl <;> rfl

/-- A request is approved by the owner of its project. It was analysed, in a project of full
strictness without an open impact, and the approval is written. -/
def Approved (id user : String) (s t : Store) : Prop :=
  ∃ r ∈ s.requests, r.id = id ∧ (r.status = .analysisComplete ∨ r.status = .pendingReview) ∧
    (∃ p ∈ s.projects, p.id = r.project ∧ p.owner = user ∧
      (p.strictness = .full → (s.dossier r).isResolved = true)) ∧
    ∃ commit snapshot, commit.change = r.id ∧ s.commitApproval commit snapshot = .ok t

/-- What an approval of a request is to write, for drafts each with the file that it is for. -/
def approvalOf (grammar : Grammar) (r : ChangeRequest) (pairs : List (ProjectFile × Draft))
    (stabilize : List String) (resolvedAt : Instant) : ApprovalCommit where
  project := r.project
  change := r.id
  promoted := pairs.map fun x => promotionOf grammar r.project x.1 x.2
  stabilize := stabilize
  resolvedAt := resolvedAt

/-- What an approval of a request writes. The author's active drafts are promoted, each of them
with the file that it is for. -/
structure Promotes (setup : Setup) (r : ChangeRequest) (pairs : List (ProjectFile × Draft))
    (w w' : World) : Prop where
  drafts : pairs.map (·.2) = w.store.activeDrafts r.author r.component
  files : ∀ x ∈ pairs, x.1 ∈ w.store.files ∧ x.1.id = x.2.file ∧ x.1.project = r.project ∧
    w.store.isReadable [.symbols] x.1.id = true
  objects : (putAll (pairs.map fun x =>
    (revisionKey r.project x.2.id x.1.path, Utf8.encode x.2.content)) w.objects).2 =
      (none, w'.objects)
  written : ∃ time snapshot, w.store.commitApproval
    (approvalOf setup.grammar r pairs (w.store.affectedBy r.id) time) snapshot = .ok w'.store
  project : ∃ p, w.store.project? r.project = .ok (some p)

theorem Promotes.committed {setup : Setup} {r : ChangeRequest}
    {pairs : List (ProjectFile × Draft)} {w' : World} (h : Promotes setup r pairs w w') :
    ∃ commit snapshot,
      commit.promoted = pairs.map (fun x => promotionOf setup.grammar r.project x.1 x.2) ∧
        w.store.commitApproval commit snapshot = .ok w'.store := by
  obtain ⟨time, snapshot, hcommit⟩ := h.written
  exact ⟨_, snapshot, rfl, hcommit⟩

/-- An approval is written as a whole, or what it stored is removed again. -/
theorem approveRequest_ends (setup : Setup) (id user : String) :
    Yields (approveRequest setup id user) w (w.Retracted id) fun outcome w' =>
      Approved id user w.store w'.store ∧
        ∃ r pairs, w.store.request? id = .ok (some r) ∧ Promotes setup r pairs w w' ∧
          w'.events = w.events ++ (w.store.dossier r).news .approved ∧
          ∃ time, w.store.commitApproval
            (approvalOf setup.grammar r pairs (w.store.affectedBy r.id) time) outcome.snapshot =
              .ok w'.store := by
  have hrefl := World.Retracted.refl id w
  refine Yields.need (fun _ => hrefl) fun r hr => ?_
  obtain ⟨hm, rfl⟩ := Store.mem_of_request? hr
  refine Yields.need (fun _ => hrefl) fun p hp => ?_
  obtain ⟨hpm, hpid⟩ := Store.mem_of_project? hp
  refine Yields.require (fun _ => hrefl) fun howner => ?_
  refine Yields.require (fun _ => hrefl) fun hstatus => ?_
  refine Yields.read (fun _ => hrefl) fun impacts himpacts => ?_
  refine Yields.require (fun _ => hrefl) fun hstrict => ?_
  refine Yields.query ?_
  have hfile (d : Draft) : Yields (draftedFile p.id d) w (w.Retracted r.id)
      fun f w' => (f ∈ w.store.files ∧ f.id = d.file ∧ f.project = p.id ∧
        w.store.isReadable [.symbols] f.id = true) ∧ w' = w := by
    rw [draftedFile, ← bind_pure (need _ _)]
    refine Yields.need (fun _ => hrefl) fun f hf => ?_
    obtain ⟨found, hfound, hf⟩ := Store.bind_eq_ok.mp hf
    injection hf with hf
    obtain ⟨rfl, hfp⟩ := Option.filter_eq_some_iff.mp hf
    obtain ⟨hfm, hfid⟩ := Store.mem_of_file? hfound
    exact ⟨⟨hfm, hfid, of_decide_eq_true hfp, Store.isReadable_of_readFirst hfound⟩, rfl⟩
  refine Yields.bind (Yields.mapM (I := fun v => v = w)
    (R := fun d x => ∃ f, (f ∈ w.store.files ∧ f.id = d.file ∧ f.project = p.id ∧
      w.store.isReadable [.symbols] f.id = true) ∧
        x = (promotionOf setup.grammar p.id f d, f.path, d)) rfl ?_) ?_
  · rintro d - v rfl
    refine Yields.bind (hfile d) ?_
    rintro f _ ⟨hf, rfl⟩
    exact ⟨⟨f, hf, rfl⟩, rfl⟩
  rintro promotions w ⟨hpromotions, rfl⟩
  obtain ⟨pairs, hdrafts, rfl, hpairs⟩ := Store.exists_pairs_of_forall₂ hpromotions
  refine Yields.query (Yields.now ?_)
  refine Yields.bind ((storeAndCommit_ends _ _).imp (fun v hv => ⟨hv.1, hv.2.1, _, ?_, hv.2.2⟩)
    fun _ _ hs => hs) ?_
  · intro c hc
    obtain ⟨_, hp, rfl⟩ := List.mem_map.mp hc
    obtain ⟨x, hx, rfl⟩ := List.mem_map.mp hp
    have hd : x.2 ∈ w.store.activeDrafts r.author r.component := by
      rw [← hdrafts]
      exact List.mem_map_of_mem hx
    refine ⟨r, hm, rfl, x.2, hd, x.1, (hpairs x hx).1, (hpairs x hx).2.1, ?_⟩
    rw [← hpid]
    rfl
  · rintro snapshot v' ⟨hput, hcommit, hevents⟩
    refine Yields.bind (notifyDecision_succeeds r impacts .approved).yields ?_
    rintro _ v'' ⟨hstore, hobjects, hnews⟩
    have hwritten : w.store.commitApproval
        (approvalOf setup.grammar r pairs (w.store.affectedBy r.id) w.clock) snapshot =
          .ok v''.store := by
      rw [approvalOf, ← hpid, hstore, ← hcommit, List.map_map]
      rfl
    refine ⟨⟨r, hm, rfl, ?_, ⟨p, hpm, hpid, of_decide_eq_true howner, fun hfull => ?_⟩, _, snapshot,
      rfl, hstore ▸ hcommit⟩, r, pairs, hr, ?_, ?_, w.clock, hwritten⟩
    · simpa using hstatus
    · have hzero : openCount impacts = 0 := by simpa [hfull] using hstrict
      rw [Dossier.isResolved_iff]
      intro i hi
      have hmem := List.mem_filter.mp hi
      exact openCount_eq_zero.mp hzero i
        ((Store.mem_impactsOf himpacts).mpr ⟨hmem.1, of_decide_eq_true hmem.2⟩)
    · refine ⟨hdrafts, fun x hx => hpid ▸ hpairs x hx, ?_, ⟨w.clock, snapshot, hwritten⟩, ⟨p, hp⟩⟩
      rw [hobjects, ← hput, List.map_map, hpid]
      rfl
    · rw [hnews, hevents, Store.news_of_impactsOf himpacts (Or.inl rfl)]

/-- When objects can be removed and the keys of the revisions were free, an approval that fails
leaves no trace. -/
theorem approveRequest_yields (setup : Setup) (id user : String) :
    Yields (approveRequest setup id user) w (World.Restored (w.TakesBack id) w) fun _ w' =>
      Approved id user w.store w'.store ∧
        ∃ r pairs, w.store.request? id = .ok (some r) ∧ Promotes setup r pairs w w' :=
  (approveRequest_ends setup id user).imp (fun _ hv => hv.restored)
    fun _ _ ⟨hat, r, pairs, hr, hpromotes, _⟩ => ⟨hat, r, pairs, hr, hpromotes⟩

/-- Whatever was added to intact tables, the graph of the project of a request can be rebuilt. -/
theorem rebuildGraph_of_grows {v : World} (h : w.store.Intact)
    (hgrows : Store.Grows w.store v.store) {r : ChangeRequest} (hr : r ∈ w.store.requests) :
    Succeeds (rebuildGraph r.project) v fun _ v' => v' = { v with
      store := v.store.withGraph r.project (DependencyGraph.build (v.store.indexed r.project)) } := by
  have hintact := hgrows.intact h
  obtain ⟨p, hp, hid⟩ := h.requestProjects r hr _ rfl
  exact rebuildGraph_succeeds hintact.toConsistent
    (Store.legible_of_readable hintact.readable r.project)
    (Store.hasProject_iff.mpr ⟨p, hgrows.projects hp, hid⟩)

/-- The graph is rebuilt after an approval, and that cannot fail. -/
theorem approveAndRebuild_yields (h : w.store.Intact) (setup : Setup) (id user : String) :
    Yields (approveAndRebuild setup id user) w (World.Restored (w.TakesBack id) w) fun _ w' =>
      ∃ s project g, Approved id user w.store s ∧ w'.store = s.withGraph project g := by
  refine Yields.need (fun _ => ⟨rfl, rfl, fun _ => rfl⟩) fun r hr => ?_
  obtain ⟨hm, rfl⟩ := Store.mem_of_request? hr
  refine Yields.bind (approveRequest_yields setup r.id user) fun outcome v hv => ?_
  obtain ⟨hv, -⟩ := hv
  have hgrows : Store.Grows w.store v.store := by
    obtain ⟨-, -, -, -, -, commit, snapshot, -, hcommit⟩ := hv
    exact Store.grows_commitApproval hcommit
  refine Yields.bind (rebuildGraph_of_grows h hgrows hm).yields ?_
  rintro _ _ rfl
  exact ⟨v.store, r.project, _, hv, rfl⟩

/-! ## Rejection -/

/-- A request is rejected by the owner of its project while it is not decided. -/
theorem rejectRequest_decides (w : World) (id user : String) :
    Decides (rejectRequest id user) w fun _ w' =>
      ∃ r ∈ w.store.requests, r.id = id ∧ r.status.isTerminal = false ∧
        (∃ p ∈ w.store.projects, p.id = r.project ∧ p.owner = user) ∧
        (∃ time, w'.store = w.store.commitRejection id (w.store.affectedBy id) time) ∧
        w'.objects = w.objects ∧
        w'.events = w.events ++ (w.store.dossier r).news .rejected := by
  refine Yields.need (fun _ => .refl w) fun r hr => ?_
  obtain ⟨hm, rfl⟩ := Store.mem_of_request? hr
  refine Yields.need (fun _ => .refl w) fun p hp => ?_
  obtain ⟨hpm, hpid⟩ := Store.mem_of_project? hp
  refine Yields.require (fun _ => .refl w) fun howner => ?_
  refine Yields.require (fun _ => .refl w) fun hterm => ?_
  refine Yields.read (fun _ => .refl w) fun impacts himpacts => ?_
  refine Yields.now ?_
  refine Yields.write_ok rfl ?_
  refine (notifyDecision_succeeds r impacts .rejected).yields.imp (fun _ he => he) ?_
  rintro _ w' ⟨hstore, hobjects, hnews⟩
  exact ⟨r, hm, rfl, by simpa using hterm, ⟨p, hpm, hpid, of_decide_eq_true howner⟩,
    ⟨w.clock, hstore⟩, hobjects,
    hnews.trans (congrArg _ (Store.news_of_impactsOf himpacts (Or.inr rfl)))⟩

/-- Nothing stands in the way of a rejection by the owner but a decision. -/
theorem rejectRequest_succeeds (h : w.store.Intact) {r : ChangeRequest}
    (hr : r ∈ w.store.requests) (ht : r.status.isTerminal = false) {p : Project}
    (hp : p ∈ w.store.projects) (hid : p.id = r.project) :
    Succeeds (rejectRequest r.id p.owner) w fun _ w' =>
      ∃ time, w'.store = w.store.commitRejection r.id (w.store.affectedBy r.id) time := by
  obtain ⟨is, his⟩ := Store.impactsOf_of_readable h.readable r.id
  refine Yields.need_ok (h.request?_eq hr) ?_
  refine Yields.need_ok (hid ▸ h.project?_eq hp) ?_
  refine Yields.require (fun hf => absurd rfl (of_decide_eq_false hf)) fun _ => ?_
  refine Yields.require (fun hf => by rw [ht] at hf; cases hf) fun _ => ?_
  refine Yields.read_ok his (Yields.now (Yields.write_ok rfl ?_))
  refine Yields.imp (notifyDecision_succeeds r is .rejected) (fun _ hf => hf) ?_
  rintro _ w' ⟨hstore, -⟩
  exact ⟨w.clock, hstore⟩

end ChangeImpact
