import ChangeImpact.Proofs.Objects.Key
import ChangeImpact.Proofs.Objects.Stored
import ChangeImpact.Proofs.Store.Promoted
import ChangeImpact.Proofs.Workflow.Decided
import ChangeImpact.Proofs.Workflow.Indexed

/-!
# Indexing after an approval

An approval stores the content of each draft under a key of its own and gives the file
that key and the symbols of the content; of several drafts of a file the last remains.
Where the symbols of all files were those of their content before, they are so afterwards,
and indexing the project again changes nothing. This needs that no draft is stored over
the content of another file.
-/

namespace ChangeImpact

open Operation

/-! ## The files after an approval -/

/-- No draft that an approval promotes is stored over the content of another file: neither over
that of a draft of another file, nor over what a file without drafts has. -/
structure Store.KeysApart (s : Store) (r : ChangeRequest) : Prop where
  drafts : ∀ d ∈ s.activeDrafts r.author r.component, ∀ e ∈ s.activeDrafts r.author r.component,
    ∀ f ∈ s.files, ∀ g ∈ s.files, f.id = d.file → g.id = e.file → f.id ≠ g.id →
      revisionKey r.project d.id f.path ≠ revisionKey r.project e.id g.path
  files : ∀ d ∈ s.activeDrafts r.author r.component, ∀ f ∈ s.files, f.id = d.file →
    ∀ g ∈ s.files, g.project = r.project →
      (∀ e ∈ s.activeDrafts r.author r.component, g.id ≠ e.file) →
        revisionKey r.project d.id f.path ≠ g.storageKey

/-- Drafts do not share keys when their identifiers have no slash, and files that were loaded, or
got their content from a draft of their own, do not share them with a draft of another file. -/
theorem Store.keysApart_of_keys {s : Store} {r : ChangeRequest} (h : s.Consistent)
    (hid : ∀ d ∈ s.drafts, '/' ∉ d.id.toList)
    (hkeys : ∀ g ∈ s.files, g.project = r.project → g.storageKey = fileKey r.project g.path ∨
      ∃ e ∈ s.drafts, e.file = g.id ∧ g.storageKey = revisionKey r.project e.id g.path) :
    s.KeysApart r := by
  have hown {d e : Draft} {f g : ProjectFile} (hd : d ∈ s.drafts) (he : e ∈ s.drafts)
      (hfd : f.id = d.file) (hge : g.id = e.file) (hne : f.id ≠ g.id) :
      revisionKey r.project d.id f.path ≠ revisionKey r.project e.id g.path := by
    intro hkey
    have hde := h.draftIds.eq_of_key_eq hd he
      (revision_eq_of_revisionKey_eq (hid d hd) (hid e he) hkey)
    exact hne (by rw [hfd, hde, hge])
  constructor
  · intro d hd e he f _ g _
    exact hown (mem_activeDrafts.mp hd).1 (mem_activeDrafts.mp he).1
  · intro d hd f _ hfd g hg hgp hnone
    rcases hkeys g hg hgp with hkey | ⟨e, he, hge, hkey⟩
    · rw [hkey]
      exact revisionKey_ne_fileKey _ _ _ _
    · rw [hkey]
      exact hown (mem_activeDrafts.mp hd).1 he hfd hge.symm fun hfg => hnone d hd (hfg ▸ hfd)

/-- Either no member has a property or there is a last one that has it. -/
private theorem exists_last_or {α : Type} (p : α → Prop) (xs : List α) :
    (∀ x ∈ xs, ¬ p x) ∨ ∃ before x after, xs = before ++ x :: after ∧ p x ∧ ∀ y ∈ after, ¬ p y := by
  induction xs with
  | nil => exact Or.inl fun x hx => absurd hx List.not_mem_nil
  | cons x xs ih =>
    rcases ih with hnone | ⟨before, y, after, rfl, hy, hafter⟩
    · by_cases hx : p x
      · exact Or.inr ⟨[], x, xs, rfl, hx, hnone⟩
      · exact Or.inl (List.forall_mem_cons.mpr ⟨hx, hnone⟩)
    · exact Or.inr ⟨x :: before, y, after, rfl, hy, hafter⟩

/-- The file that an approval makes of a file. -/
def promotedFile (grammar : Grammar) (project : String) (pairs : List (ProjectFile × Draft))
    (f : ProjectFile) : ProjectFile :=
  (pairs.map fun x => promotionOf grammar project x.1 x.2).foldl (fun f p => f.promote p) f

section File

variable {grammar : Grammar} {project : String} {pairs before after : List (ProjectFile × Draft)}
  {f : ProjectFile}

theorem id_promotedFile : (promotedFile grammar project pairs f).id = f.id :=
  ProjectFile.foldl_promote_eq ProjectFile.id_promote _ f

theorem project_promotedFile : (promotedFile grammar project pairs f).project = f.project :=
  ProjectFile.foldl_promote_eq ProjectFile.project_promote _ f

theorem path_promotedFile : (promotedFile grammar project pairs f).path = f.path :=
  ProjectFile.foldl_promote_eq ProjectFile.path_promote _ f

theorem component_promotedFile :
    (promotedFile grammar project pairs f).component = f.component :=
  ProjectFile.foldl_promote_eq ProjectFile.component_promote _ f

/-- A file without drafts stays as it is. -/
theorem promotedFile_of_ne (h : ∀ x ∈ pairs, x.1.id ≠ f.id) :
    promotedFile grammar project pairs f = f := by
  refine ProjectFile.foldl_promote_of_ne fun p hp => ?_
  obtain ⟨x, hx, rfl⟩ := List.mem_map.mp hp
  exact Ne.symm (h x hx)

/-- The last draft of a file has the last word. -/
theorem promotedFile_append {d : Draft} (hlast : ∀ x ∈ after, x.1.id ≠ f.id) :
    promotedFile grammar project (before ++ (f, d) :: after) f =
      (promotedFile grammar project before f).promote (promotionOf grammar project f d) := by
  have hafter : promotedFile grammar project (before ++ (f, d) :: after) f =
      promotedFile grammar project after
        ((promotedFile grammar project before f).promote (promotionOf grammar project f d)) := by
    rw [promotedFile, List.map_append, List.map_cons, List.foldl_append, List.foldl_cons]
    rfl
  rw [hafter, promotedFile_of_ne]
  intro x hx
  rw [ProjectFile.id_promote, id_promotedFile]
  exact hlast x hx

/-- The symbols that the last draft of a file leaves are those of the stored content, if the
content of that draft is stored. -/
theorem reparsed_promotedFile {o : Objects} {d : Draft}
    (hget : o.get? (revisionKey project d.id f.path) = some (Utf8.encode d.content))
    (hlast : ∀ x ∈ after, x.1.id ≠ f.id) :
    reparsed grammar o (promotedFile grammar project (before ++ (f, d) :: after) f) =
      (promotedFile grammar project (before ++ (f, d) :: after) f).symbols := by
  rw [promotedFile_append hlast, ProjectFile.promote_of_eq id_promotedFile, reparsed]
  simp only [promotionOf, hget, path_promotedFile]
  cases (parseFile grammar f.path (Utf8.encode d.content)).map (·.parsed) <;> rfl

end File

section Promoted

variable {setup : Setup} {r : ChangeRequest} {pairs : List (ProjectFile × Draft)} {w v : World}

theorem Promotes.mem_activeDrafts (h : Promotes setup r pairs w v) {x : ProjectFile × Draft}
    (hx : x ∈ pairs) : x.2 ∈ w.store.activeDrafts r.author r.component :=
  h.drafts ▸ List.mem_map_of_mem hx

theorem Promotes.files_eq (h : Promotes setup r pairs w v) :
    v.store.files = w.store.files.map (promotedFile setup.grammar r.project pairs) := by
  obtain ⟨commit, snapshot, hpromoted, hcommit⟩ := h.committed
  rw [Store.files_commitApproval hcommit, hpromoted]
  rfl

/-- A file has no drafts that are promoted, or there is a last one. -/
theorem Promotes.exists_last (h : Promotes setup r pairs w v) (hw : w.store.Consistent)
    {f : ProjectFile} (hf : f ∈ w.store.files) :
    (∀ x ∈ pairs, x.1.id ≠ f.id) ∨
      ∃ before d after, pairs = before ++ (f, d) :: after ∧ ∀ x ∈ after, x.1.id ≠ f.id := by
  rcases exists_last_or (fun x => x.1.id = f.id) pairs with hnone | hsome
  · exact Or.inl hnone
  · obtain ⟨before, ⟨g, d⟩, after, rfl, hid, hlast⟩ := hsome
    have hmem : (g, d) ∈ before ++ (g, d) :: after :=
      List.mem_append_right _ (List.mem_cons_self ..)
    obtain rfl : g = f := hw.fileIds.eq_of_key_eq (h.files _ hmem).1 hf hid
    exact Or.inr ⟨before, d, after, rfl, hlast⟩

/-- The content of the last draft of a file is what is stored under its key. -/
theorem Promotes.get?_last {before after : List (ProjectFile × Draft)} {f : ProjectFile}
    {d : Draft} (h : Promotes setup r (before ++ (f, d) :: after) w v)
    (hlast : ∀ x ∈ after,
      revisionKey r.project x.2.id x.1.path ≠ revisionKey r.project d.id f.path) :
    v.objects.get? (revisionKey r.project d.id f.path) = some (Utf8.encode d.content) := by
  have hput := h.objects
  rw [List.map_append, List.map_cons] at hput
  refine get?_putAll_append hput fun c hc => ?_
  obtain ⟨x, hx, rfl⟩ := List.mem_map.mp hc
  exact hlast x hx

/-- Symbols that were those of the content of their file are so after the approval. -/
theorem Promotes.reparsed_eq (h : Promotes setup r pairs w v) (hw : w.store.Consistent)
    (hkeys : w.store.KeysApart r) {f : ProjectFile} (hf : f ∈ w.store.files)
    (hp : f.project = r.project) (hold : reparsed setup.grammar w.objects f = f.symbols) :
    reparsed setup.grammar v.objects (promotedFile setup.grammar r.project pairs f) =
      (promotedFile setup.grammar r.project pairs f).symbols := by
  have hpair (d : Draft) (hd : d ∈ w.store.activeDrafts r.author r.component) :
      ∃ x ∈ pairs, x.2 = d := List.mem_map.mp (h.drafts ▸ hd)
  rcases h.exists_last hw hf with hnone | ⟨before, d, after, rfl, hlast⟩
  -- No draft of this file: both the file and what is stored under its key are the old ones.
  · have hget : v.objects.get? f.storageKey = w.objects.get? f.storageKey := by
      refine get?_eq_of_putAll h.objects fun c hc => ?_
      obtain ⟨x, hx, rfl⟩ := List.mem_map.mp hc
      refine hkeys.files x.2 (h.mem_activeDrafts hx) x.1 (h.files x hx).1 (h.files x hx).2.1 f hf hp
        fun e he hfe => ?_
      obtain ⟨y, hy, rfl⟩ := hpair e he
      exact hnone y hy ((h.files y hy).2.1.trans hfe.symm)
    rw [promotedFile_of_ne hnone, reparsed, hget]
    exact hold
  -- The later drafts are of other files, so they write neither its row nor its key.
  · have hmem : (f, d) ∈ before ++ (f, d) :: after :=
      List.mem_append_right _ (List.mem_cons_self ..)
    refine reparsed_promotedFile (h.get?_last fun x hx => ?_) hlast
    have hx' : x ∈ before ++ (f, d) :: after :=
      List.mem_append_right _ (List.mem_cons_of_mem _ hx)
    exact hkeys.drafts x.2 (h.mem_activeDrafts hx') d (h.mem_activeDrafts hmem) x.1
      (h.files x hx').1 f hf (h.files x hx').2.1 (h.files _ hmem).2.1 (hlast x hx)

end Promoted

/-! ## The tables after an approval -/

namespace Store

variable {s : Store} {project : String}

theorem Consistent.rebuilt (h : s.Consistent) (hp : s.hasProject project = true) :
    (s.withGraph project (DependencyGraph.build (s.indexed project))).Consistent :=
  Consistent.of_damaged [] (h.mended.replaceGraph
    (replaceGraph_build h.mended.toConsistent hp)).toConsistent

/-- Parsing changes nothing when all symbols are those of the stored content. -/
theorem reparse_eq_self_iff {grammar : Grammar} {o : Objects} :
    (s.reparse grammar o project).files = s.files ↔
      ∀ f ∈ s.files, f.project = project → reparsed grammar o f = f.symbols := by
  refine updateWhere_eq_self_iff.trans (forall₂_congr fun f _ => ?_)
  rw [decide_eq_true_eq]
  refine imp_congr_right fun _ => ⟨fun h => congrArg ProjectFile.symbols h, fun h => ?_⟩
  rw [h]

theorem reparse_eq_self {grammar : Grammar} {o : Objects}
    (h : (s.reparse grammar o project).files = s.files) : s.reparse grammar o project = s :=
  congrArg (fun files => { s with files }) h

end Store

/-- Rebuilding the graph of a project that is there is possible exactly when its files can be
read. -/
theorem rebuildGraph_yields {w : World} (h : w.store.Consistent) {project : String}
    (hp : w.store.hasProject project = true) :
    Yields (rebuildGraph project) w (fun _ => True) fun _ v =>
      w.store.Legible project ∧ v = { w with
        store := w.store.withGraph project (DependencyGraph.build (w.store.indexed project)) } := by
  by_cases hread : w.store.Legible project
  · exact Yields.imp (rebuildGraph_succeeds h hread hp) (fun _ hf => hf.elim) fun _ _ hv =>
      ⟨hread, hv⟩
  · exact Yields.read (fun _ => trivial) fun files hfiles =>
      absurd (Store.legible_of_filesOf hfiles) hread

/-- Indexing a project whose files can be read leaves their tables parsed again. -/
theorem step_index {w : World} (hw : w.store.Consistent) (setup : Setup) {project : String}
    {p : Project} (hp : w.store.project? project = .ok (some p)) (hread : w.store.Legible project) :
    (step setup w (.index project)).store = w.store.index setup.grammar w.objects project := by
  obtain ⟨report, w', hindex, -, hw'⟩ := (indexProject_succeeds hw setup hp hread).exists_ok
  rw [step_eq_of_exec (a := .index project) hindex, hw']

theorem Store.Intact.step_index {w : World} (h : w.store.Intact) (setup : Setup) {p : Project}
    (hp : p ∈ w.store.projects) (project : String) (hid : p.id = project) :
    (step setup w (.index project)).store = w.store.index setup.grammar w.objects project :=
  ChangeImpact.step_index h.toConsistent setup (hid ▸ h.project?_eq hp)
    (legible_of_readable h.readable project)

section Approved

variable {setup : Setup} {r : ChangeRequest} {user : String} {w v : World}

/-- What is there after an approval whose graph was rebuilt. -/
theorem approveAndRebuild_promotes (hw : w.store.Consistent) (hr : r ∈ w.store.requests) :
    Yields (approveAndRebuild setup r.id user) w (fun _ => True) fun _ v =>
      ∃ pairs u, Promotes setup r pairs w u ∧ u.store.Legible r.project ∧
        v.objects = u.objects ∧ v.store =
          u.store.withGraph r.project (DependencyGraph.build (u.store.indexed r.project)) := by
  have hown {q : ChangeRequest} (hq : w.store.request? r.id = .ok (some q)) : q = r := by
    obtain ⟨hm, hid⟩ := Store.mem_of_request? hq
    exact hw.requestIds.eq_of_key_eq hm hr hid
  refine Yields.need (fun _ => trivial) fun q hq => ?_
  obtain rfl := hown hq
  refine Yields.bind ((approveRequest_yields setup q.id user).imp (fun _ _ => trivial)
    fun _ _ hv => hv.2) ?_
  rintro outcome u ⟨q', pairs, hq', h⟩
  obtain rfl := hown hq'
  obtain ⟨commit, snapshot, hpromoted, hcommit⟩ := h.committed
  obtain ⟨p, hp⟩ := h.project
  have hproject : u.store.hasProject q'.project = true := by
    obtain ⟨hm, hid⟩ := Store.mem_of_project? hp
    exact Store.hasProject_iff.mpr
      ⟨p, (Store.projects_commitApproval hcommit).symm ▸ hm, hid⟩
  refine Yields.bind (rebuildGraph_yields (hw.commitApproval hcommit) hproject) ?_
  rintro g _ ⟨hread, rfl⟩
  exact ⟨pairs, u, h, hread, rfl, rfl⟩

/-- Where the tables are intact, the graph can be rebuilt after every approval. -/
theorem approveAndRebuild_of_approved {outcome : ApprovalOutcome} (h : w.store.Intact)
    (hr : r ∈ w.store.requests)
    (he : exec (approveRequest setup r.id user) w = (.ok outcome, v)) :
    exec (approveAndRebuild setup r.id user) w = (.ok outcome, { v with
      store := v.store.withGraph r.project (DependencyGraph.build (v.store.indexed r.project)) }) := by
  have hgrows : Store.Grows w.store v.store := by
    have hkeeps := grows_approveRequest setup r.id user w
    rwa [he] at hkeeps
  obtain ⟨g, v', hrebuild, rfl⟩ := (rebuildGraph_of_grows h hgrows hr).exists_ok
  have hneed : exec (getRequest r.id) w = (.ok r, w) := by
    rw [getRequest, exec_need, h.request?_eq hr]
  rw [approveAndRebuild, exec_bind_ok hneed, exec_bind_ok he, exec_bind_ok hrebuild, exec_pure]

/-- The files of the project could be read before an approval if they can afterwards, as those
of the drafts had to be. -/
theorem Promotes.legible {pairs : List (ProjectFile × Draft)} (h : Promotes setup r pairs w v)
    (hread : v.store.Legible r.project) : w.store.Legible r.project := by
  obtain ⟨commit, snapshot, hpromoted, hcommit⟩ := h.committed
  intro f hf hp
  -- An approval leaves files without drafts as they are, and those with drafts it read itself.
  by_cases hpair : ∃ x ∈ pairs, x.1.id = f.id
  · obtain ⟨x, hx, hid⟩ := hpair
    exact hid ▸ (h.files x hx).2.2.2
  · have hsame : f ∈ v.store.files := by
      rw [h.files_eq]
      exact List.mem_map.mpr ⟨f, hf, promotedFile_of_ne fun x hx hid => hpair ⟨x, hx, hid⟩⟩
    refine Store.isReadable_of_commitApproval hcommit (hread f hsame hp) fun p hp => ?_
    rw [hpromoted] at hp
    obtain ⟨x, hx, rfl⟩ := List.mem_map.mp hp
    exact fun hid => hpair ⟨x, hx, hid.symm⟩

/-- When indexing the project changed no file before an approval, indexing it right afterwards
changes nothing: neither a file nor an edge nor an import that leads out. -/
theorem index_approved {outcome : ApprovalOutcome} (hw : w.store.Consistent)
    (hr : r ∈ w.store.requests) (hkeys : w.store.KeysApart r)
    (hindexed : (step setup w (.index r.project)).store.files = w.store.files)
    (he : exec (approveAndRebuild setup r.id user) w = (.ok outcome, v)) :
    ∃ report v', exec (indexProject setup r.project) v = (.ok report, v') ∧
      v'.store = v.store := by
  obtain ⟨pairs, u, h, hread, hobjects, hstore⟩ := (approveAndRebuild_promotes hw hr).of_ok he
  obtain ⟨commit, snapshot, -, hcommit⟩ := h.committed
  obtain ⟨p, hp⟩ := h.project
  have hbefore : (w.store.reparse setup.grammar w.objects r.project).files = w.store.files := by
    rw [← hindexed, step_index hw setup hp (h.legible hread)]
    rfl
  -- The rebuilt graph is not looked at by parsing: it is enough to follow the symbols.
  have hafter : (v.store.reparse setup.grammar v.objects r.project).files = v.store.files := by
    rw [Store.reparse_eq_self_iff] at hbefore ⊢
    intro f' hf' hp'
    have hfiles : v.store.files = u.store.files := by
      rw [hstore]
      rfl
    rw [hfiles, h.files_eq] at hf'
    obtain ⟨f, hf, rfl⟩ := List.mem_map.mp hf'
    have hpf : f.project = r.project := project_promotedFile.symm.trans hp'
    rw [hobjects]
    exact h.reparsed_eq hw hkeys hf hpf (hbefore f hf hpf)
  have hproject : v.store.project? r.project = .ok (some p) := by
    rw [hstore]
    exact Store.project?_of_subset (Store.projects_commitApproval hcommit)
      (Store.damaged_commitApproval hcommit) hp
  have hconsistent : v.store.Consistent := by
    rw [hstore] at hproject ⊢
    exact (hw.commitApproval hcommit).rebuilt
      (Store.hasProject_iff.mpr ⟨p, Store.mem_of_project? hproject⟩)
  have hlegible : v.store.Legible r.project := hstore ▸ hread
  obtain ⟨report, v', hindex, -, hv'⟩ :=
    (indexProject_succeeds hconsistent setup hproject hlegible).exists_ok
  refine ⟨report, v', hindex, hv'.trans ?_⟩
  rw [Store.index, Store.reparse_eq_self hafter, hstore]
  exact Store.withGraph_withGraph _

end Approved

/-! ## Files with content of one language -/

/-- A project with an owner. -/
def sampleShop : Project where
  id := "shop"
  name := "Shop"
  owner := "olga"
  strictness := .soft

/-- A file of the core without content so far. -/
def samplePriceSource : ProjectFile where
  id := "f1"
  project := "shop"
  component := some "core"
  path := "core/price.ts"
  storageKey := fileKey "shop" "core/price.ts"

/-- A second file, whose content is looked for under a given key. -/
def sampleRateSource (storageKey : String) : ProjectFile where
  id := "f2"
  project := "shop"
  component := some "core"
  path := "core/rate.ts"
  storageKey

/-- A project with both files, a draft of the first one and a request that waits for the owner. -/
def sampleSources (key : String) : World := run sampleSetup { clock := ⟨0⟩ }
  [.enter (.project sampleShop),
    .enter (.component { id := "core", project := "shop", name := "Core" }),
    .enter (.file samplePriceSource),
    .enter (.draft sampleDraft),
    .create "shop" "core" "ana" "Prices" "" true,
    .analyze sampleRequest.id,
    .enter (.file (sampleRateSource key))]

theorem reachable_sampleSources (key : String) : Reachable sampleSetup (sampleSources key) :=
  (Reachable.start rfl rfl).run _

/-- The second file at a key of its own. -/
def sampleApart : World := sampleSources (fileKey "shop" "core/rate.ts")

/-- The second file at the key that the draft of the first one will get. -/
def sampleShared : World := sampleSources (revisionKey "shop" "d1" "core/price.ts")

/-- The request once it waits for the owner. -/
def sampleReviewed : ChangeRequest :=
  { sampleRequest with status := .pendingReview, updatedAt := ⟨3 * Operation.tick⟩ }

/-- Indexing changes nothing where nothing was parsed, parsing finds nothing and no graph is
stored. -/
theorem Store.index_eq_self {s : Store} {grammar : Grammar} {o : Objects} {project : String}
    (hfiles : (s.reparse grammar o project).files = s.files)
    (hsymbols : ∀ f ∈ s.files, f.symbols = none) (hedges : s.edges = [])
    (hexternal : s.external = []) : s.index grammar o project = s := by
  have hnone : s.indexed project = [] := by
    rw [Store.indexed, List.filterMap_eq_nil_iff]
    intro f hf
    rw [indexed?, hsymbols f (List.mem_of_mem_filter (Ordered.mem_sortBy.mp hf)), Option.map_none]
  rw [Store.index, Store.reparse_eq_self hfiles, hnone]
  cases s
  cases hedges
  cases hexternal
  rfl

/-- The owner approves, and indexing afterwards changes nothing, as it did before. -/
theorem sample_index_approved :
    Reachable sampleSetup sampleApart ∧ sampleReviewed ∈ sampleApart.store.requests ∧
    sampleApart.store.KeysApart sampleReviewed ∧
    (step sampleSetup sampleApart (.index "shop")).store.files = sampleApart.store.files ∧
    ∃ outcome v report v',
      exec (approveAndRebuild sampleSetup sampleReviewed.id "olga") sampleApart =
        (.ok outcome, v) ∧
      exec (indexProject sampleSetup "shop") v = (.ok report, v') ∧ v'.store = v.store := by
  have hreach : Reachable sampleSetup sampleApart := reachable_sampleSources _
  have hrequest : sampleReviewed ∈ sampleApart.store.requests := by decide +kernel
  have hkeys : sampleApart.store.KeysApart sampleReviewed :=
    ⟨by decide +kernel, by decide +kernel⟩
  have hindexed : (step sampleSetup sampleApart (.index "shop")).store.files =
      sampleApart.store.files := by
    rw [hreach.intact.step_index sampleSetup (p := sampleShop) (by decide +kernel) "shop" rfl]
    decide +kernel
  obtain ⟨outcome, happroved⟩ := exec_eq_ok_of_isSome (w := sampleApart)
    (a := approveRequest sampleSetup sampleReviewed.id "olga") (by decide +kernel)
  have he := approveAndRebuild_of_approved hreach.intact hrequest happroved
  obtain ⟨report, v', hindex, hstore⟩ :=
    index_approved hreach.intact.toConsistent hrequest hkeys hindexed he
  exact ⟨hreach, hrequest, hkeys, hindexed, outcome, _, report, v', he, hindex, hstore⟩

/-- When the draft is stored over what the second file has, the approval does not parse that file
again, and indexing afterwards changes it. -/
theorem sample_index_shared :
    Reachable sampleSetup sampleShared ∧ sampleReviewed ∈ sampleShared.store.requests ∧
    (step sampleSetup sampleShared (.index "shop")).store = sampleShared.store ∧
    ∃ outcome v,
      exec (approveAndRebuild sampleSetup sampleReviewed.id "olga") sampleShared =
        (.ok outcome, v) ∧
      (step sampleSetup v (.index "shop")).store.files ≠ v.store.files := by
  have hreach : Reachable sampleSetup sampleShared := reachable_sampleSources _
  have hrequest : sampleReviewed ∈ sampleShared.store.requests := by decide +kernel
  have hindexed : (step sampleSetup sampleShared (.index "shop")).store = sampleShared.store := by
    rw [hreach.intact.step_index sampleSetup (p := sampleShop) (by decide +kernel) "shop" rfl]
    refine Store.index_eq_self ?_ ?_ ?_ ?_ <;> decide +kernel
  obtain ⟨outcome, happroved⟩ := exec_eq_ok_of_isSome (w := sampleShared)
    (a := approveRequest sampleSetup sampleReviewed.id "olga") (by decide +kernel)
  have he := approveAndRebuild_of_approved hreach.intact hrequest happroved
  refine ⟨hreach, hrequest, hindexed, outcome, _, he, ?_⟩
  let u := (exec (approveRequest sampleSetup sampleReviewed.id "olga") sampleShared).2
  have hchanges : (u.store.reparse sampleSetup.grammar u.objects "shop").files ≠ u.store.files := by
    decide +kernel
  have hintact : (step sampleSetup sampleShared
      (.approveAndRebuild sampleReviewed.id "olga")).store.Intact := (hreach.step _).intact
  rw [step_eq_of_exec (a := .approveAndRebuild sampleReviewed.id "olga") he] at hintact
  rw [hintact.step_index sampleSetup (p := sampleShop) ?_ "shop" rfl]
  · exact hchanges
  · show sampleShop ∈ u.store.projects
    decide +kernel

end ChangeImpact
