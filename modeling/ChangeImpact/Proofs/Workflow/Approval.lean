import ChangeImpact.Proofs.Workflow.Reviewed

/-!
# What an approval carries out

An approval promotes the active drafts of the author on the component of the request. The
newest draft of a file becomes its content, which is stored under a key of its own; the drafts
are not active any more, the components on which the request has impacts are stable, and a
snapshot holds the files of the project as they are then. Everything else stays: other files,
drafts and components, and the objects that were there before.
-/

namespace ChangeImpact

open Operation

/-! ## The newest draft -/

/-- A draft is not newer than another one. Of two drafts that were written at the same time the
newer one is that with the greater identifier. -/
def Draft.UpTo (e d : Draft) : Prop :=
  e.createdAt < d.createdAt ∨ e.createdAt = d.createdAt ∧ e.id ≤ d.id

/-- The newest of the drafts of a file that an approval of a request promotes. -/
structure Store.Newest (s : Store) (r : ChangeRequest) (f : ProjectFile) (d : Draft) : Prop extends
    s.Drafted r f d where
  newest : ∀ e, s.Drafted r f e → e.UpTo d

namespace Draft

variable {a b c : Draft}

theorem UpTo.trans (hab : a.UpTo b) (hbc : b.UpTo c) : a.UpTo c := by
  rcases hab with hab | ⟨hab, hab'⟩
  · rcases hbc with hbc | ⟨hbc, -⟩
    · exact Or.inl (Int.lt_trans hab hbc)
    · exact Or.inl (hbc ▸ hab)
  · rcases hbc with hbc | ⟨hbc, hbc'⟩
    · exact Or.inl (hab ▸ hbc)
    · exact Or.inr ⟨hab.trans hbc, le_trans hab' hbc'⟩

theorem upTo_total (a b : Draft) : a.UpTo b ∨ b.UpTo a := by
  rcases lt_trichotomy a.createdAt.nanos b.createdAt.nanos with hlt | heq | hlt
  · exact Or.inl (Or.inl hlt)
  · have htime : a.createdAt = b.createdAt := congrArg Instant.mk heq
    exact (le_total a.id b.id).imp (fun hid => Or.inr ⟨htime, hid⟩)
      (fun hid => Or.inr ⟨htime.symm, hid⟩)
  · exact Or.inr (Or.inl hlt)

/-- Of two drafts that are not newer than each other there is only one. -/
theorem UpTo.id_eq (hab : a.UpTo b) (hba : b.UpTo a) : a.id = b.id := by
  rcases hab with hab | ⟨htime, hab⟩
  · rcases hba with hba | ⟨htime, -⟩
    · exact absurd (Int.lt_trans hab hba) (Int.lt_irrefl _)
    · rw [htime] at hab
      exact absurd hab (Int.lt_irrefl _)
  · rcases hba with hba | ⟨-, hba⟩
    · rw [htime] at hba
      exact absurd hba (Int.lt_irrefl _)
    · exact le_antisymm hab hba

end Draft

/-- There is one newest draft of a file. -/
theorem Store.Newest.eq {s : Store} {r : ChangeRequest} {f : ProjectFile} {d e : Draft}
    (hs : s.Consistent) (hd : s.Newest r f d) (he : s.Newest r f e) : d = e :=
  hs.draftIds.eq_of_key_eq hd.draft he.draft
    ((he.newest d hd.toDrafted).id_eq (hd.newest e he.toDrafted))

/-- Drafts are promoted in the order in which they were written. -/
theorem Store.pairwise_activeDrafts (s : Store) (author component : String) :
    (s.activeDrafts author component).Pairwise Draft.UpTo := by
  refine Ordered.pairwise_sortBy (r := Draft.UpTo) (fun a b => ?_) (fun _ _ _ => Draft.UpTo.trans)
    Draft.upTo_total _
  rw [Bool.or_eq_true, Bool.and_eq_true, decide_eq_true_eq, decide_eq_true_eq, decide_eq_true_eq]
  rfl

namespace Promotes

variable {setup : Setup} {r : ChangeRequest} {pairs before after : List (ProjectFile × Draft)}
  {w v : World} {f : ProjectFile} {d : Draft}

/-- The promoted drafts are the active ones of the author on the component. -/
theorem mem_pairs_iff (h : Promotes setup r pairs w v) (hw : w.store.Consistent) :
    (f, d) ∈ pairs ↔ w.store.Drafted r f d := by
  have hsame {x : ProjectFile × Draft} (hx : x ∈ pairs) {g : ProjectFile} (hg : g ∈ w.store.files)
      (hid : g.id = x.2.file) : g = x.1 :=
    hw.fileIds.eq_of_key_eq hg (h.files x hx).1 (hid.trans (h.files x hx).2.1.symm)
  constructor
  · intro hx
    obtain ⟨hd, hauthor, hactive, g, hg, hid, hcomponent⟩ :=
      Store.mem_activeDrafts.mp (h.mem_activeDrafts hx)
    obtain rfl := hsame hx hg hid
    exact ⟨hd, hauthor, hactive, hg, hid, hcomponent⟩
  · intro hd
    have hactive : d ∈ w.store.activeDrafts r.author r.component :=
      Store.mem_activeDrafts.mpr
        ⟨hd.draft, hd.author, hd.active, f, hd.file, hd.named, hd.component⟩
    rw [← h.drafts] at hactive
    obtain ⟨x, hx, rfl⟩ := List.mem_map.mp hactive
    rw [hsame hx hd.file hd.named]
    exact hx

theorem pairwise (h : Promotes setup r pairs w v) : pairs.Pairwise fun x y => x.2.UpTo y.2 :=
  List.pairwise_map.mp (h.drafts ▸ w.store.pairwise_activeDrafts r.author r.component)

/-- The draft of a file that is promoted last is the newest. -/
theorem newest_last (h : Promotes setup r (before ++ (f, d) :: after) w v)
    (hw : w.store.Consistent) (hlast : ∀ x ∈ after, x.1.id ≠ f.id) : w.store.Newest r f d := by
  refine ⟨(h.mem_pairs_iff hw).mp List.mem_append_cons_self, fun e he => ?_⟩
  rcases List.mem_append.mp ((h.mem_pairs_iff hw).mpr he) with hbefore | hrest
  · exact (List.pairwise_append.mp h.pairwise).2.2 _ hbefore _ (List.mem_cons_self ..)
  · rcases List.mem_cons.mp hrest with heq | hafter
    · cases heq
      exact Or.inr ⟨rfl, le_refl _⟩
    · exact absurd rfl (hlast _ hafter)

/-- The content of the draft of a file that is promoted last stays under its key, unless a newer
draft of another file has the same key. -/
theorem stored_last (h : Promotes setup r (before ++ (f, d) :: after) w v)
    (hw : w.store.Consistent) (hlast : ∀ x ∈ after, x.1.id ≠ f.id)
    (hkey : ∀ g e, w.store.Drafted r g e →
      revisionKey r.project e.id g.path = revisionKey r.project d.id f.path → e.UpTo d) :
    v.objects.get? (revisionKey r.project d.id f.path) = some (Utf8.encode d.content) := by
  refine h.get?_last fun x hx hsame => hlast x hx ?_
  have hx' : x ∈ before ++ (f, d) :: after :=
    List.mem_append_right _ (List.mem_cons_of_mem _ hx)
  have hmem : (f, d) ∈ before ++ (f, d) :: after := List.mem_append_cons_self
  have hdrafted := (h.mem_pairs_iff hw).mp hx'
  have hafter : d.UpTo x.2 :=
    (List.pairwise_cons.mp (List.pairwise_append.mp h.pairwise).2.1).1 x hx
  -- Neither is newer than the other, so they are one draft, and it is of one file.
  have hid : x.2.id = d.id := (hkey x.1 x.2 hdrafted hsame).id_eq hafter
  have hdraft : x.2 = d :=
    hw.draftIds.eq_of_key_eq hdrafted.draft ((h.mem_pairs_iff hw).mp hmem).draft hid
  rw [(h.files x hx').2.1, hdraft, ← (h.files _ hmem).2.1]

end Promotes

/-! ## What is written -/

/-- A file has got the content of a draft: the newest of the author's active drafts of it. The
symbols are those of the content if the language of the file is known. The content is there
unless a newer draft of another file was stored over it. -/
structure ProjectFile.Becomes (setup : Setup) (r : ChangeRequest) (w : World) (o : Objects)
    (f : ProjectFile) (d : Draft) (f' : ProjectFile) : Prop where
  newest : w.store.Newest r f d
  row : f' = { f with
    storageKey := revisionKey r.project d.id f.path
    hash := some (Digest.sha256 (Utf8.encode d.content))
    size := (Utf8.encode d.content).length
    symbols := f'.symbols }
  parsed : ∀ language, Language.detect f.path = some language →
    f'.symbols = some (parseAs setup.grammar language f.path (Utf8.encode d.content)).parsed
  unparsed : Language.detect f.path = none → f'.symbols = f.symbols
  stored : (∀ g e, w.store.Drafted r g e →
      revisionKey r.project e.id g.path = revisionKey r.project d.id f.path → e.UpTo d) →
    o.get? (revisionKey r.project d.id f.path) = some (Utf8.encode d.content)

/-- What an approval of a request, which took a snapshot, made of a world. -/
structure CarriesOut (setup : Setup) (r : ChangeRequest) (snapshot : String) (w v : World) :
    Prop where
  files : List.Forall₂ (fun f f' => (∃ d, f.Becomes setup r w v.objects d f') ∨
    (∀ d, ¬w.store.Drafted r f d) ∧ f' = f) w.store.files v.store.files
  drafts : Store.Rewrites (fun d => ∃ f, w.store.Drafted r f d)
    (fun d => { d with active := false }) w.store.drafts v.store.drafts
  objects : ∀ key data, w.objects.get? key = some data → v.objects.get? key = some data
  components : Store.Rewrites
    (fun k => ∃ i ∈ w.store.impacts, i.change = r.id ∧ i.component = k.id)
    (fun k => { k with status := .stable }) w.store.components v.store.components
  /-- The snapshot is new. -/
  snapshots : (∀ n ∈ w.store.snapshots, n.id ≠ snapshot) ∧ ∃ time, v.store.snapshots =
    w.store.snapshots ++
      [{ id := snapshot, project := r.project, change := some r.id, createdAt := time }]
  /-- It has one row for each file of the project, and nothing is added to others. -/
  rows : v.store.snapshotFiles.filter (·.snapshot = snapshot) =
    (v.store.files.filter (·.project = r.project)).map fun f => ⟨snapshot, Store.snapshotFile f⟩
  kept : v.store.snapshotFiles.filter (·.snapshot ≠ snapshot) = w.store.snapshotFiles

section Approval

variable {setup : Setup} {r : ChangeRequest} {pairs : List (ProjectFile × Draft)} {w v : World}
  {snapshot : String}

/-- A file of no known language keeps its symbols. -/
theorem symbols_promotedFile {grammar : Grammar} {project : String} {f : ProjectFile}
    (h : ∀ x ∈ pairs, x.1.id = f.id → Language.detect x.1.path = none) :
    (promotedFile grammar project pairs f).symbols = f.symbols := by
  refine ProjectFile.symbols_foldl_promote fun p hp hid => ?_
  obtain ⟨x, hx, rfl⟩ := List.mem_map.mp hp
  rw [promotionOf, parseFile, h x hx hid.symm]
  rfl

/-- What the earlier drafts left of a file is overwritten by the last one, up to its symbols. -/
theorem promotedFile_eq (grammar : Grammar) (project : String)
    {before after : List (ProjectFile × Draft)} {f f' : ProjectFile} {d : Draft}
    (hlast : ∀ x ∈ after, x.1.id ≠ f.id)
    (hf' : f' = promotedFile grammar project (before ++ (f, d) :: after) f) :
    f' = { f with
      storageKey := revisionKey project d.id f.path
      hash := some (Digest.sha256 (Utf8.encode d.content))
      size := (Utf8.encode d.content).length
      symbols := f'.symbols } ∧
    f'.symbols = ((parseFile grammar f.path (Utf8.encode d.content)).map (·.parsed) <|>
      (promotedFile grammar project before f).symbols) := by
  rw [promotedFile_append hlast, ProjectFile.promote_of_eq id_promotedFile] at hf'
  have hsymbols := congrArg ProjectFile.symbols hf'
  refine ⟨?_, hsymbols⟩
  have hrow := ProjectFile.foldl_promote_eq (g := fun g : ProjectFile =>
    { g with
      storageKey := revisionKey project d.id f.path
      hash := some (Digest.sha256 (Utf8.encode d.content))
      size := (Utf8.encode d.content).length
      symbols := f'.symbols }) (fun p g => by rw [ProjectFile.promote]; split <;> rfl)
    (before.map fun x => promotionOf grammar project x.1 x.2) f
  rw [← hrow]
  exact hf'.trans (by rw [hsymbols]; rfl)

theorem Promotes.becomes (h : Promotes setup r pairs w v) (hw : w.store.Consistent)
    {f : ProjectFile} (hf : f ∈ w.store.files) :
    (∃ d, f.Becomes setup r w v.objects d (promotedFile setup.grammar r.project pairs f)) ∨
      (∀ d, ¬w.store.Drafted r f d) ∧ promotedFile setup.grammar r.project pairs f = f := by
  rcases h.exists_last hw hf with hnone | ⟨before, d, after, rfl, hlast⟩
  · refine Or.inr ⟨fun d hd => ?_, promotedFile_of_ne hnone⟩
    exact hnone _ ((h.mem_pairs_iff hw).mpr hd) rfl
  · obtain ⟨hrow, hsymbols⟩ := promotedFile_eq setup.grammar r.project hlast rfl
    refine Or.inl ⟨d, h.newest_last hw hlast, hrow, fun language hlanguage => ?_, fun hnone => ?_,
      h.stored_last hw hlast⟩
    · rw [hsymbols, parseFile, hlanguage]
      rfl
    · rw [hsymbols, parseFile, hnone]
      refine symbols_promotedFile fun x hx hid => ?_
      have hx' : x ∈ before ++ (f, d) :: after := List.mem_append_left _ hx
      rw [hw.fileIds.eq_of_key_eq (h.files x hx').1 hf hid, hnone]

theorem Promotes.rewrites_drafts (h : Promotes setup r pairs w v) (hw : w.store.Consistent) :
    Store.Rewrites (fun d => ∃ f, w.store.Drafted r f d) (fun d => { d with active := false })
      w.store.drafts v.store.drafts := by
  rw [h.drafts_eq]
  refine Store.rewrites_map fun d hd => ?_
  by_cases hdrafted : ∃ f, w.store.Drafted r f d
  · obtain ⟨f, hf⟩ := hdrafted
    exact Or.inl ⟨⟨f, hf⟩, Draft.promote_of_mem
      (List.mem_map_of_mem ((h.mem_pairs_iff hw).mpr hf)) rfl⟩
  · refine Or.inr ⟨hdrafted, ?_⟩
    rcases d.promote_cases (pairs.map fun x => promotionOf setup.grammar r.project x.1 x.2) with
      ⟨⟨p, hp, hid⟩, -⟩ | hsame
    · obtain ⟨x, hx, rfl⟩ := List.mem_map.mp hp
      have hx := (h.mem_pairs_iff hw).mp hx
      rw [hw.draftIds.eq_of_key_eq hx.draft hd hid] at hx
      exact absurd ⟨x.1, hx⟩ hdrafted
    · exact hsame

/-- What is stored under keys that were free takes nothing away. -/
theorem Promotes.get?_kept (h : Promotes setup r pairs w v) (hw : w.store.Consistent)
    (hfree : ∀ f d, w.store.Drafted r f d →
      w.objects.get? (revisionKey f.project d.id f.path) = none) {key : String} {data : Bytes}
    (hget : w.objects.get? key = some data) : v.objects.get? key = some data := by
  rw [get?_eq_of_putAll h.objects fun c hc => ?_, hget]
  obtain ⟨x, hx, rfl⟩ := List.mem_map.mp hc
  rintro rfl
  have hnone := hfree x.1 x.2 ((h.mem_pairs_iff hw).mp hx)
  rw [(h.files x hx).2.2.1, hget] at hnone
  cases hnone

theorem Promotes.carriesOut (h : Promotes setup r pairs w v) (hw : w.store.Consistent)
    (hfree : ∀ f d, w.store.Drafted r f d →
      w.objects.get? (revisionKey f.project d.id f.path) = none) {time : Instant}
    (hcommit : w.store.commitApproval
      (approvalOf setup.grammar r pairs (w.store.affectedBy r.id) time) snapshot = .ok v.store) :
    CarriesOut setup r snapshot w v := by
  obtain ⟨hfresh, hsnapshots⟩ := Store.snapshots_commitApproval hcommit
  have hrows := Store.snapshotFiles_commitApproval hcommit
  have hold : ∀ row ∈ w.store.snapshotFiles, decide (row.snapshot = snapshot) = false := by
    intro row hrow
    obtain ⟨n, hn, hid⟩ := hw.snapshotFileSnapshots row hrow _ rfl
    exact decide_eq_false (hid ▸ hfresh n hn)
  have hnew : ∀ row ∈ (v.store.files.filter (·.project = r.project)).map fun f =>
      (⟨snapshot, Store.snapshotFile f⟩ : StoredSnapshotFile),
      decide (row.snapshot = snapshot) = true := by
    intro row hrow
    obtain ⟨f, -, rfl⟩ := List.mem_map.mp hrow
    exact decide_eq_true rfl
  obtain ⟨hrecorded, hkept⟩ := Store.filter_append_new hold hnew
  refine ⟨?_, h.rewrites_drafts hw, fun key data => h.get?_kept hw hfree, ?_,
    ⟨hfresh, time, hsnapshots⟩, ?_, ?_⟩
  · rw [h.files_eq]
    exact List.forall₂_map_right_iff.mpr (List.forall₂_same.mpr fun f hf => h.becomes hw hf)
  · rw [Store.components_commitApproval hcommit]
    refine Store.rewrites_updateWhere fun k _ => ?_
    rw [List.contains_iff_mem]
    exact Store.mem_affectedBy
  · rw [hrows]
    exact hrecorded
  · simp only [ne_eq, decide_not]
    rw [hrows]
    exact hkept

/-- An approval that goes through promotes drafts and is written. -/
theorem exists_promotes {user : String} {outcome : ApprovalOutcome} (hw : w.store.Consistent)
    (hr : r ∈ w.store.requests)
    (he : exec (approveRequest setup r.id user) w = (.ok outcome, v)) :
    ∃ pairs, Promotes setup r pairs w v ∧ ∃ time, w.store.commitApproval
      (approvalOf setup.grammar r pairs (w.store.affectedBy r.id) time) outcome.snapshot =
        .ok v.store := by
  obtain ⟨-, q, pairs, hq, hpromotes, -, hcommit⟩ :=
    (approveRequest_ends setup r.id user).of_ok he
  obtain ⟨hm, hid⟩ := Store.mem_of_request? hq
  obtain rfl := hw.requestIds.eq_of_key_eq hm hr hid
  exact ⟨pairs, hpromotes, hcommit⟩

theorem storeAndCommit_succeeds {contents : List (String × Bytes)} {commit : ApprovalCommit}
    (hput : ∀ c ∈ contents, w.objects.refusesPut c.1 = false)
    (hcommit : ∃ t, w.store.commitApproval commit (idOf w.issued) = .ok t) :
    Succeeds (storeAndCommit contents commit) w fun _ _ => True := by
  obtain ⟨t, hcommit⟩ := hcommit
  have hstored := refusal_putAll hput
  rw [Succeeds, Yields, exec_storeAndCommit, hcommit]
  rcases hputs : putAll contents w.objects with ⟨keys, refusal, o⟩
  rw [hputs] at hstored
  cases hstored
  trivial

/-- Nothing stands in the way of an approval by the owner, if the request was analysed, in a
project of full strictness all impacts are resolved, the drafts are for files of the project, their
content can be stored and the identifier of the snapshot is not taken. -/
theorem approveRequest_succeeds (setup : Setup) (h : w.store.Intact)
    (hr : r ∈ w.store.requests) (hready : r.status.isReady = true) {p : Project}
    (hp : p ∈ w.store.projects) (hid : p.id = r.project)
    (hstrict : p.strictness = .full → (w.store.dossier r).isResolved = true)
    (hfiles : ∀ f d, w.store.Drafted r f d → f.project = r.project)
    (hput : ∀ f d, w.store.Drafted r f d →
      w.objects.refusesPut (revisionKey r.project d.id f.path) = false)
    (hfresh : ∀ n ∈ w.store.snapshots, n.id ≠ idOf w.issued) :
    Succeeds (approveRequest setup r.id p.owner) w fun _ _ => True := by
  obtain ⟨impacts, himpacts⟩ := Store.impactsOf_of_readable h.readable r.id
  refine Yields.need_ok (h.request?_eq hr) ?_
  refine Yields.need_ok (hid ▸ h.project?_eq hp) ?_
  refine Yields.require (fun hf => absurd rfl (of_decide_eq_false hf)) fun _ => ?_
  refine Yields.require (fun hf => ?_) fun _ => ?_
  · cases hstatus : r.status <;> rw [hstatus] at hready hf <;> cases hready <;> cases hf
  refine Yields.read_ok himpacts (Yields.require (fun hf => ?_) fun _ => ?_)
  · rw [Bool.or_eq_false_iff, decide_eq_false_iff_not, not_not, decide_eq_false_iff_not] at hf
    refine hf.2 (openCount_eq_zero.mpr fun i hi => ?_)
    obtain ⟨hi, hchange⟩ := (Store.mem_impactsOf himpacts).mp hi
    exact Dossier.isResolved_iff.mp (hstrict hf.1) i
      (List.mem_filter.mpr ⟨hi, decide_eq_true hchange⟩)
  refine Yields.query (Yields.bind (Yields.mapM (I := fun v => v = w)
    (R := fun _ x => w.objects.refusesPut x.1.storageKey = false) rfl ?_) ?_)
  · rintro d hd w rfl
    obtain ⟨hdraft, hauthor, hactive, f, hf, hfile, hcomponent⟩ := Store.mem_activeDrafts.mp hd
    have hdrafted : w.store.Drafted r f d := ⟨hdraft, hauthor, hactive, hf, hfile, hcomponent⟩
    have hproject := hfiles f d hdrafted
    refine Yields.need_ok (x := f) ?_ ⟨hid.symm ▸ hput f d hdrafted, rfl⟩
    refine Store.bind_eq_ok.mpr ⟨some f, hfile ▸ h.file?_eq hf, ?_⟩
    rw [Option.filter_some, if_pos (decide_eq_true (hproject.trans hid.symm))]
  rintro promotions w ⟨hpromotions, rfl⟩
  refine Yields.query (Yields.now (Yields.bind (P := fun _ _ => True) ?_ ?_))
  · refine storeAndCommit_succeeds (fun c hc => ?_)
      (Store.exists_commitApproval hfresh ⟨p, hp, rfl⟩ ⟨r, hr, rfl⟩)
    obtain ⟨x, hx, rfl⟩ := List.mem_map.mp hc
    obtain ⟨_, _, hput⟩ := Store.exists_left_of_forall₂ hpromotions hx
    exact hput
  · intro snapshot v _
    refine Yields.bind (notifyDecision_succeeds r impacts .approved) ?_
    exact fun _ _ _ => trivial

/-- Where nothing is stored yet under the keys of the drafts that are promoted, an approval that
goes through carries out all of this and nothing else. -/
theorem approval_carriesOut {user : String} {outcome : ApprovalOutcome} (h : Reachable setup w)
    (hr : r ∈ w.store.requests)
    (hfree : ∀ f d, w.store.Drafted r f d →
      w.objects.get? (revisionKey f.project d.id f.path) = none)
    (he : exec (approveRequest setup r.id user) w = (.ok outcome, v)) :
    CarriesOut setup r outcome.snapshot w v := by
  have hw := h.intact.toConsistent
  obtain ⟨pairs, hpromotes, time, hcommit⟩ := exists_promotes hw hr he
  exact hpromotes.carriesOut hw hfree hcommit

end Approval

/-! ## Drafts of two files -/

/-- The core has two files. When the request waits for the owner, the author writes two drafts of
the first file, one after the other, and a draft of the second with a given identifier. -/
def sampleTwins (other : String) : World := run sampleSetup { clock := ⟨0⟩ }
  [.enter (.project sampleShop),
    .enter (.component { id := "core", project := "shop", name := "Core" }),
    .create "shop" "core" "ana" "Prices" "" true,
    .analyze sampleRequest.id,
    .enter (.file { samplePriceSource with path := "x/a.ts" }),
    .enter (.file { sampleRateSource "" with path := "a.ts" }),
    .enter (.draft { sampleDraft with id := "d0", content := "old" }),
    .enter (.draft sampleDraft),
    .enter (.draft { sampleDraft with id := other, file := "f2", content := "other" })]

theorem reachable_sampleTwins (other : String) : Reachable sampleSetup (sampleTwins other) :=
  (Reachable.start rfl rfl).run _

/-- With one of two identifiers nothing is stored yet, and nothing stands in the way of an
approval. -/
theorem exists_approved_sampleTwins {other : String} (h : other = "d2" ∨ other = "d1/x") :
    sampleReviewed ∈ (sampleTwins other).store.requests ∧
    (∀ key, (sampleTwins other).objects.get? key = none) ∧
    ∃ outcome v, exec (approveRequest sampleSetup sampleReviewed.id "olga") (sampleTwins other) =
      (.ok outcome, v) := by
  have hfacts : sampleReviewed ∈ (sampleTwins other).store.requests ∧
      sampleShop ∈ (sampleTwins other).store.projects ∧
      (∀ f ∈ (sampleTwins other).store.files, f.project = "shop" ∧
        ∀ d ∈ (sampleTwins other).store.drafts,
          (sampleTwins other).objects.refusesPut (revisionKey "shop" d.id f.path) = false) ∧
      (sampleTwins other).store.snapshots = [] ∧ (sampleTwins other).objects.entries = [] := by
    rcases h with rfl | rfl <;> decide +kernel
  obtain ⟨hrequest, hproject, hfiles, hsnapshots, hentries⟩ := hfacts
  have hfresh : ∀ n ∈ (sampleTwins other).store.snapshots,
      n.id ≠ idOf (sampleTwins other).issued := by
    rw [hsnapshots]
    exact fun n hn => absurd hn List.not_mem_nil
  obtain ⟨outcome, v, he, -⟩ := (approveRequest_succeeds sampleSetup
    (reachable_sampleTwins other).intact hrequest rfl hproject rfl (fun hfull => by cases hfull)
    (fun f d hd => (hfiles f hd.file).1) (fun f d hd => (hfiles f hd.file).2 d hd.draft)
    hfresh).exists_ok
  refine ⟨hrequest, fun key => ?_, outcome, v, he⟩
  rw [Objects.get?, hentries]
  rfl

/-- The owner approves when the drafts have keys of their own. -/
theorem sample_approval_carriesOut :
    let w := sampleTwins "d2"
    Reachable sampleSetup w ∧ sampleReviewed ∈ w.store.requests ∧
    (∀ f d, w.store.Drafted sampleReviewed f d →
      w.objects.get? (revisionKey f.project d.id f.path) = none) ∧
    ∃ outcome v, exec (approveRequest sampleSetup sampleReviewed.id "olga") w = (.ok outcome, v) ∧
      CarriesOut sampleSetup sampleReviewed outcome.snapshot w v := by
  intro w
  have hreach : Reachable sampleSetup w := reachable_sampleTwins _
  obtain ⟨hrequest, hfree, outcome, v, he⟩ := exists_approved_sampleTwins (Or.inl rfl)
  exact ⟨hreach, hrequest, fun _ _ _ => hfree _, outcome, v, he,
    approval_carriesOut hreach hrequest (fun _ _ _ => hfree _) he⟩

/-- When the draft of the second file is newer and has the key of the newest draft of the first,
its content is stored over that draft. -/
theorem sample_approval_overlaid :
    let w := sampleTwins "d1/x"
    Reachable sampleSetup w ∧ sampleReviewed ∈ w.store.requests ∧
    (∀ f d, w.store.Drafted sampleReviewed f d →
      w.objects.get? (revisionKey f.project d.id f.path) = none) ∧
    ∃ outcome v, exec (approveRequest sampleSetup sampleReviewed.id "olga") w = (.ok outcome, v) ∧
      ∃ f d, w.store.Newest sampleReviewed f d ∧ ∃ f' ∈ v.store.files, f'.id = f.id ∧
        v.objects.get? f'.storageKey ≠ some (Utf8.encode d.content) := by
  intro w
  have hreach : Reachable sampleSetup w := reachable_sampleTwins _
  have hw := hreach.intact.toConsistent
  obtain ⟨hrequest, hfree, outcome, v, he⟩ := exists_approved_sampleTwins (Or.inr rfl)
  refine ⟨hreach, hrequest, fun _ _ _ => hfree _, outcome, v, he, ?_⟩
  obtain ⟨pairs, hpromotes, -⟩ := exists_promotes hw hrequest he
  let f : ProjectFile := { samplePriceSource with path := "x/a.ts" }
  let g : ProjectFile := { sampleRateSource "" with path := "a.ts" }
  let last : Draft := { sampleDraft with id := "d1/x", file := "f2", content := "other" }
  have hfiles : f ∈ w.store.files ∧ g ∈ w.store.files := by decide +kernel
  have hdrafts : sampleDraft ∈ w.store.drafts ∧ last ∈ w.store.drafts ∧
      ∀ e ∈ w.store.drafts, e.createdAt = ⟨0⟩ ∧ e.id ≤ "d1/x" ∧ (e.file = "f1" → e.id ≤ "d1") := by
    decide +kernel
  obtain ⟨hfirst, hlast, horder⟩ := hdrafts
  have hnewest : w.store.Newest sampleReviewed f sampleDraft :=
    ⟨⟨hfirst, rfl, rfl, hfiles.1, rfl, rfl⟩, fun e he =>
      Or.inr ⟨(horder e he.draft).1, (horder e he.draft).2.2 he.named.symm⟩⟩
  have hupTo (e : Draft) (he : e ∈ w.store.drafts) : e.UpTo last :=
    Or.inr ⟨(horder e he).1, (horder e he).2.1⟩
  have hnewest' : w.store.Newest sampleReviewed g last :=
    ⟨⟨hlast, rfl, rfl, hfiles.2, rfl, rfl⟩, fun e he => hupTo e he.draft⟩
  refine ⟨f, sampleDraft, hnewest, promotedFile sampleSetup.grammar "shop" pairs f, ?_, ?_, ?_⟩
  · rw [hpromotes.files_eq]
    exact List.mem_map_of_mem hfiles.1
  · exact id_promotedFile
  · have hkey : (promotedFile sampleSetup.grammar "shop" pairs f).storageKey =
        revisionKey "shop" "d1" "x/a.ts" := by
      rcases hpromotes.becomes hw hfiles.1 with ⟨d, hd⟩ | ⟨hnone, -⟩
      · obtain rfl := hd.newest.eq hw hnewest
        exact congrArg (·.storageKey) hd.row
      · exact absurd hnewest.toDrafted (hnone _)
    have hget : v.objects.get? (revisionKey "shop" "d1/x" "a.ts") =
        some (Utf8.encode "other") := by
      rcases hpromotes.becomes hw hfiles.2 with ⟨d, hd⟩ | ⟨hnone, -⟩
      · obtain rfl := hd.newest.eq hw hnewest'
        exact hd.stored fun _ e he _ => hupTo e he.draft
      · exact absurd hnewest'.toDrafted (hnone _)
    have hsame : revisionKey "shop" "d1" "x/a.ts" = revisionKey "shop" "d1/x" "a.ts" := by
      decide +kernel
    rw [hkey, hsame, hget]
    decide +kernel

end ChangeImpact
