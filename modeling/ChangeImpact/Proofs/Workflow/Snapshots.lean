import ChangeImpact.Proofs.Workflow.Reviewed

/-!
# Snapshots stay readable

A snapshot names, for every file of a project, the key of its content and the digest. The key
of a promoted draft is never written again, but the key of an uploaded file is written again
when the project is loaded again. So what a snapshot names is there with its digest for as
long as no load brings other content for an uploaded file that a snapshot names.
-/

namespace ChangeImpact

open Operation

variable {setup : Setup} {w w' : World} {a : Action}

/-! ## Committed content -/

namespace Store

/-- No project and no draft has a slash in its identifier. -/
structure Slashless (s : Store) : Prop where
  projects : ∀ p ∈ s.projects, '/' ∉ p.id.toList
  drafts : ∀ d ∈ s.drafts, '/' ∉ d.id.toList

/-- The key of an uploaded file. -/
def IsUpload (s : Store) (key : String) : Prop :=
  ∃ p ∈ s.projects, ∃ path, key = fileKey p.id path

/-- The key of a draft that is active, or of one that is not. -/
def IsRevision (s : Store) (active : Bool) (key : String) : Prop :=
  ∃ p ∈ s.projects, ∃ d ∈ s.drafts, d.active = active ∧ ∃ path, key = revisionKey p.id d.id path

/-- The key of content that no approval will write again. -/
def IsSettled (s : Store) (key : String) : Prop := s.IsUpload key ∨ s.IsRevision false key

/-- A file lies where it was uploaded, or where an approval stored it. -/
def Places (s : Store) (f : ProjectFile) : Prop :=
  f.storageKey = fileKey f.project f.path ∨ s.IsRevision false f.storageKey

variable {s : Store}

theorem Places.isSettled {f : ProjectFile} (h : s.Places f) (hs : s.Consistent)
    (hf : f ∈ s.files) : s.IsSettled f.storageKey := by
  refine h.imp_left fun hkey => ?_
  obtain ⟨p, hp, hid⟩ := hs.fileProjects f hf _ rfl
  exact ⟨p, hp, f.path, hkey.trans (congrArg (fileKey · f.path) hid.symm)⟩

theorem IsSettled.ne {key active : String} (h : s.IsSettled key) (hs : s.Consistent)
    (hslash : s.Slashless) (ha : s.IsRevision true active) : active ≠ key := by
  obtain ⟨q, hq, e, he, hactive, y, rfl⟩ := ha
  rcases h with ⟨p, hp, x, rfl⟩ | ⟨p, hp, d, hd, hdone, x, rfl⟩
  · exact (fileKey_ne_revisionKey (hslash.projects p hp) (hslash.projects q hq)).symm
  · intro hkey
    obtain ⟨-, hid, -⟩ := revisionKey_inj (hslash.projects q hq) (hslash.projects p hp)
      (hslash.drafts e he) (hslash.drafts d hd) hkey
    rw [hs.draftIds.eq_of_key_eq he hd hid, hdone] at hactive
    cases hactive

end Store

/-- What was settled stays so, with its content. -/
structure World.Retains (w w' : World) : Prop where
  projects : w.store.projects ⊆ w'.store.projects
  drafts : ∀ d ∈ w.store.drafts, d.active = false → d ∈ w'.store.drafts
  objects : ∀ key, w.store.IsSettled key → ∀ data, w.objects.get? key = some data →
    w'.objects.get? key = some data

theorem World.Retains.isRevision (h : w.Retains w') {key : String}
    (hkey : w.store.IsRevision false key) : w'.store.IsRevision false key := by
  obtain ⟨p, hp, d, hd, hdone, path, rfl⟩ := hkey
  exact ⟨p, h.projects hp, d, h.drafts d hd hdone, hdone, path, rfl⟩

theorem World.Retains.isSettled (h : w.Retains w') {key : String}
    (hkey : w.store.IsSettled key) : w'.store.IsSettled key := by
  refine hkey.imp ?_ h.isRevision
  rintro ⟨p, hp, path, rfl⟩
  exact ⟨p, h.projects hp, path, rfl⟩

theorem World.Retains.places (h : w.Retains w') {f : ProjectFile} (hf : w.store.Places f) :
    w'.store.Places f :=
  hf.imp_right h.isRevision

/-- What was settled stays so, and files change in their symbols only. -/
structure World.Leaves (w w' : World) : Prop extends w.Retains w' where
  slashless : w'.store.Slashless
  files : w'.store.files.map (·.unparsed) = w.store.files.map (·.unparsed)
  snapshotFiles : w'.store.snapshotFiles = w.store.snapshotFiles

theorem World.Leaves.of_sameContent (hs : w.store.SameContent w'.store)
    (ho : w'.objects = w.objects) (hslash : w.store.Slashless) : w.Leaves w' where
  projects := hs.projects ▸ List.Subset.refl _
  drafts _ hd _ := hs.drafts ▸ hd
  objects _ _ _ hd := ho ▸ hd
  slashless := ⟨hs.projects ▸ hslash.projects, hs.drafts ▸ hslash.drafts⟩
  files := hs.files
  snapshotFiles := hs.snapshotFiles

theorem World.Leaves.exists_file (h : w.Leaves w') {f : ProjectFile} (hf : f ∈ w'.store.files) :
    ∃ g ∈ w.store.files, g.unparsed = f.unparsed :=
  List.mem_map.mp (h.files ▸ List.mem_map_of_mem hf)

/-- The row of a file tells its content, which is there under the key of the row. -/
structure World.Matches (w : World) (f : ProjectFile) (data : Bytes) : Prop where
  content : w.objects.get? f.storageKey = some data
  hash : f.hash = some (Digest.sha256 data)
  size : f.size = data.length

/-- There is an object with the digest under the key, if a digest is given. -/
def World.Backs (w : World) (key : String) (hash : Option String) : Prop :=
  ∀ digest, hash = some digest →
    ∃ data, w.objects.get? key = some data ∧ Digest.sha256 data = digest

theorem World.Backs.imp {key : String} {hash : Option String} (h : w.Backs key hash)
    (hget : ∀ data, w.objects.get? key = some data → w'.objects.get? key = some data) :
    w'.Backs key hash := by
  intro digest hdigest
  obtain ⟨data, hdata, hsha⟩ := h digest hdigest
  exact ⟨data, hget data hdata, hsha⟩

theorem World.Matches.backs {f : ProjectFile} {data : Bytes} (h : w.Matches f data) :
    w.Backs f.storageKey f.hash :=
  fun _ hdigest => ⟨data, h.content, Option.some.inj (h.hash.symm.trans hdigest)⟩

/-- The content of a file is there, under a key of its own. -/
structure World.Holds (w : World) (f : ProjectFile) : Prop where
  key : f.storageKey = fileKey f.project f.path ∨ w.store.IsRevision false f.storageKey
  backed : w.Backs f.storageKey f.hash

/-- The content that a snapshot names is there. -/
structure World.Shows (w : World) (row : StoredSnapshotFile) : Prop where
  key : w.store.IsSettled row.file.storageKey
  backed : w.Backs row.file.storageKey row.file.hash

/-- The content of all files and of all snapshots is there. -/
structure World.Archived (w : World) : Prop extends w.store.Slashless where
  files : ∀ f ∈ w.store.files, w.Holds f
  snapshots : ∀ row ∈ w.store.snapshotFiles, w.Shows row

section Retains

theorem World.Holds.isSettled {f : ProjectFile} (h : w.Holds f) (hw : w.store.Consistent)
    (hf : f ∈ w.store.files) : w.store.IsSettled f.storageKey :=
  Store.Places.isSettled h.key hw hf

theorem World.Holds.retained {f : ProjectFile} (h : w.Holds f) (hw : w.store.Consistent)
    (hf : f ∈ w.store.files) (hr : w.Retains w') : w'.Holds f :=
  ⟨hr.places h.key, h.backed.imp (hr.objects _ (h.isSettled hw hf))⟩

theorem World.Shows.retained {row : StoredSnapshotFile} (h : w.Shows row) (hr : w.Retains w') :
    w'.Shows row :=
  ⟨hr.isSettled h.key, h.backed.imp (hr.objects _ h.key)⟩

/-- Symbols do not count. -/
theorem World.Holds.of_unparsed {f g : ProjectFile} (h : w.Holds f)
    (heq : f.unparsed = g.unparsed) : w.Holds g := by
  have hf : w.Holds f.unparsed := ⟨h.key, h.backed⟩
  rw [heq] at hf
  exact ⟨hf.key, hf.backed⟩

theorem World.Archived.left (h : w.Archived) (hw : w.store.Consistent) (hl : w.Leaves w') :
    w'.Archived := by
  refine ⟨hl.slashless, fun f hf => ?_, fun row hrow => ?_⟩
  · obtain ⟨g, hg, heq⟩ := hl.exists_file hf
    exact ((h.files g hg).retained hw hg hl.toRetains).of_unparsed heq
  · exact (h.snapshots row (hl.snapshotFiles ▸ hrow)).retained hl.toRetains

end Retains

/-! ## Approvals -/

section Approval

variable {r : ChangeRequest} {pairs : List (ProjectFile × Draft)}

theorem Promotes.exists_project (h : Promotes setup r pairs w w') :
    ∃ p ∈ w.store.projects, p.id = r.project := by
  obtain ⟨p, hp⟩ := h.project
  exact ⟨p, Store.mem_of_project? hp⟩

theorem Promotes.mem_drafts (h : Promotes setup r pairs w w') {x : ProjectFile × Draft}
    (hx : x ∈ pairs) : x.2 ∈ w.store.drafts ∧ x.2.active = true := by
  obtain ⟨hd, -, hactive, -⟩ := Store.mem_activeDrafts.mp (h.mem_activeDrafts hx)
  exact ⟨hd, hactive⟩

theorem Promotes.projects_eq (h : Promotes setup r pairs w w') :
    w'.store.projects = w.store.projects := by
  obtain ⟨time, snapshot, hcommit⟩ := h.written
  exact Store.projects_commitApproval hcommit

/-- An approval stores under keys of active drafts. -/
theorem Promotes.isRevision (h : Promotes setup r pairs w w') {x : ProjectFile × Draft}
    (hx : x ∈ pairs) : w.store.IsRevision true (revisionKey r.project x.2.id x.1.path) := by
  obtain ⟨p, hp, hid⟩ := h.exists_project
  exact ⟨p, hp, x.2, (h.mem_drafts hx).1, (h.mem_drafts hx).2, x.1.path, by rw [hid]⟩

/-- These drafts are not active afterwards. -/
theorem Promotes.isRevision_promoted (h : Promotes setup r pairs w w') {x : ProjectFile × Draft}
    (hx : x ∈ pairs) : w'.store.IsRevision false (revisionKey r.project x.2.id x.1.path) := by
  obtain ⟨p, hp, hid⟩ := h.exists_project
  have hdone := Draft.promote_of_mem (d := x.2) (List.mem_map_of_mem
    (f := fun x => promotionOf setup.grammar r.project x.1 x.2) hx) rfl
  refine ⟨p, h.projects_eq ▸ hp, { x.2 with active := false }, ?_, rfl, x.1.path, by rw [hid]⟩
  rw [h.drafts_eq]
  exact List.mem_map.mpr ⟨x.2, (h.mem_drafts hx).1, hdone⟩

theorem Promotes.retains (h : Promotes setup r pairs w w') (hw : w.store.Consistent)
    (hslash : w.store.Slashless) : w.Retains w' := by
  refine ⟨h.projects_eq ▸ List.Subset.refl _, fun d hd hdone => ?_, fun key hkey data hdata => ?_⟩
  · rw [h.drafts_eq]
    exact List.mem_map.mpr ⟨d, hd, Draft.promote_of_inactive hdone⟩
  · rw [get?_eq_of_putAll h.objects fun c hc => ?_, hdata]
    obtain ⟨x, hx, rfl⟩ := List.mem_map.mp hc
    exact hkey.ne hw hslash (h.isRevision hx)

/-- After an approval every file is as it was or tells the content of the draft that was promoted
last for it. -/
theorem Promotes.file_cases (h : Promotes setup r pairs w w') (hw : w.store.Consistent)
    (hslash : w.store.Slashless) {f' : ProjectFile} (hf' : f' ∈ w'.store.files) :
    f' ∈ w.store.files ∨
      w'.store.IsRevision false f'.storageKey ∧ ∃ data, w'.Matches f' data := by
  rw [h.files_eq] at hf'
  obtain ⟨f, hf, rfl⟩ := List.mem_map.mp hf'
  rcases h.exists_last hw hf with hnone | ⟨before, d, after, rfl, hlast⟩
  · exact Or.inl ((promotedFile_of_ne hnone).symm ▸ hf)
  · have hmem : (f, d) ∈ before ++ (f, d) :: after :=
      List.mem_append_right _ (List.mem_cons_self ..)
    have hkey := h.isRevision_promoted hmem
    have hlastKey (x) (hx : x ∈ after) :
        revisionKey r.project x.2.id x.1.path ≠ revisionKey r.project d.id f.path := by
      intro hsame
      have hx' : x ∈ before ++ (f, d) :: after :=
        List.mem_append_right _ (List.mem_cons_of_mem _ hx)
      have hid := revision_eq_of_revisionKey_eq (hslash.drafts _ (h.mem_drafts hx').1)
        (hslash.drafts _ (h.mem_drafts hmem).1) hsame
      have hdraft : x.2 = d :=
        hw.draftIds.eq_of_key_eq (h.mem_drafts hx').1 (h.mem_drafts hmem).1 hid
      exact hlast x hx (by rw [(h.files x hx').2.1, hdraft, ← (h.files _ hmem).2.1])
    rw [promotedFile_append hlast, ProjectFile.promote_of_eq id_promotedFile]
    exact Or.inr ⟨hkey, _, h.get?_last hlastKey, rfl, rfl⟩

theorem Promotes.holds (h : Promotes setup r pairs w w') (hw : w.store.Consistent)
    (harch : w.Archived) {f' : ProjectFile} (hf' : f' ∈ w'.store.files) : w'.Holds f' := by
  rcases h.file_cases hw harch.toSlashless hf' with hf | ⟨hkey, data, hdata⟩
  · exact (harch.files f' hf).retained hw hf (h.retains hw harch.toSlashless)
  · exact ⟨Or.inr hkey, hdata.backs⟩

theorem Promotes.archived (h : Promotes setup r pairs w w') (hw : w.store.Consistent)
    (harch : w.Archived) : w'.Archived := by
  have hretains := h.retains hw harch.toSlashless
  obtain ⟨time, snapshot, hcommit⟩ := h.written
  have hw' : w'.store.Consistent := hw.commitApproval hcommit
  refine ⟨⟨h.projects_eq ▸ harch.projects, fun d hd => ?_⟩, fun f hf => h.holds hw harch hf,
    fun row hrow => ?_⟩
  · rw [h.drafts_eq] at hd
    obtain ⟨e, he, rfl⟩ := List.mem_map.mp hd
    rw [Draft.id_promote]
    exact harch.drafts e he
  · rw [Store.snapshotFiles_commitApproval hcommit] at hrow
    rcases List.mem_append.mp hrow with hold | hnew
    · exact (harch.snapshots row hold).retained hretains
    · obtain ⟨f, hf, rfl⟩ := List.mem_map.mp hnew
      have hm : f ∈ w'.store.files := (List.mem_filter.mp hf).1
      have hholds := h.holds hw harch hm
      exact ⟨hholds.isSettled hw' hm, hholds.backed⟩

/-- A failed approval removes nothing but what it stored under keys of active drafts. -/
theorem World.Retracted.retains {request : String} (h : w.Retracted request w')
    (hw : w.store.Consistent) (hslash : w.store.Slashless) : w.Retains w' := by
  obtain ⟨contents, hkeys, hobjects⟩ := h.objects
  refine ⟨h.store ▸ List.Subset.refl _, fun d hd _ => h.store ▸ hd, fun key hkey data hdata => ?_⟩
  have hne (c) (hc : c ∈ contents) : c.1 ≠ key := by
    obtain ⟨r, hr, -, d, hd, f, -, -, hrevision⟩ := hkeys c hc
    obtain ⟨p, hp, hid⟩ := hw.requestProjects r hr _ rfl
    obtain ⟨hdm, -, hactive, -⟩ := Store.mem_activeDrafts.mp hd
    refine hkey.ne hw hslash ⟨p, hp, d, hdm, hactive, f.path, ?_⟩
    exact hrevision.trans (congrArg (revisionKey · d.id f.path) hid.symm)
  rw [hobjects, get?_removeAll_of_notMem, get?_putAll_of_ne hne, hdata]
  intro hmem
  obtain ⟨c, hc, hck⟩ := List.mem_map.mp (mem_map_of_mem_putAll hmem)
  exact hne c hc hck

end Approval

/-! ## Loads -/

section Load

variable {project : String} {owner : Option String} {f : ScannedFile}

/-- Taking over a file puts no other content where a snapshot has some. Its component is there,
so its row is not refused once the content is stored. -/
structure Store.Admits (s : Store) (project : String) (owner : Option String) (f : ScannedFile) :
    Prop where
  owner : ∀ id, owner = some id → ∃ c ∈ s.components, c.id = id
  snapshots : ∀ row ∈ s.snapshotFiles, row.file.storageKey = fileKey project f.path →
    ∀ digest, row.file.hash = some digest → Digest.sha256 f.content = digest

theorem World.TakesOver.get? (h : w.TakesOver project owner f w') (key : String) :
    w'.objects.get? key =
      if key = fileKey project f.path then some f.content else w.objects.get? key :=
  Objects.get?_put h.stored

theorem World.TakesOver.intact (h : w.TakesOver project owner f w') (hw : w.store.Intact) :
    w'.store.Intact := by
  obtain ⟨id, ⟨k, hrow⟩ | ⟨-, hsame⟩⟩ := h.written
  · exact hw.upsertFile hrow
  · exact hsame ▸ hw

theorem World.TakesOver.backs_of_ne (h : w.TakesOver project owner f w') {key : String}
    {hash : Option String} (hne : key ≠ fileKey project f.path) (hbacks : w.Backs key hash) :
    w'.Backs key hash :=
  hbacks.imp fun _ hdata => (h.get? key).trans ((if_neg hne).trans hdata)

/-- A file of another place is stored elsewhere. -/
theorem Store.Places.ne_fileKey {s : Store} {g : ProjectFile} (h : s.Places g) (hs : s.Consistent)
    (hslash : s.Slashless) (hproject : '/' ∉ project.toList) (hg : g ∈ s.files)
    (hne : (project, f.path) ≠ (g.project, g.path)) : g.storageKey ≠ fileKey project f.path := by
  intro hkey
  rcases h with hown | ⟨p, hp, d, hd, -, path, hrev⟩
  · obtain ⟨q, hq, hid⟩ := hs.fileProjects g hg _ rfl
    have hq : '/' ∉ q.id.toList := hslash.projects q hq
    rw [show q.id = g.project from hid] at hq
    obtain ⟨hsame, hpath⟩ := fileKey_inj hproject hq (hkey.symm.trans hown)
    exact hne (Prod.ext hsame hpath)
  · exact fileKey_ne_revisionKey hproject (hslash.projects p hp) (hkey.symm.trans hrev)

/-- Afterwards every file is one of another place that was there or tells the content that was
taken over. -/
theorem World.TakesOver.file_cases (h : w.TakesOver project owner f w')
    (howner : ∀ id, owner = some id → ∃ c ∈ w.store.components, c.id = id) {g : ProjectFile}
    (hg : g ∈ w'.store.files) :
    (g ∈ w.store.files ∧ (project, f.path) ≠ (g.project, g.path)) ∨
      g.storageKey = fileKey g.project g.path ∧ w'.Matches g f.content := by
  obtain ⟨id, ⟨k, hrow⟩ | ⟨hrefused, hsame⟩⟩ := h.written
  · rcases Store.mem_files_upsertFile hrow hg with ⟨hold, hplace⟩ | ⟨j, rfl⟩
    · exact Or.inl ⟨hold, fun heq => Bool.eq_false_iff.mp hplace (Store.samePlace_iff.mpr heq)⟩
    · exact Or.inr ⟨rfl, (h.get? _).trans (if_pos rfl), rfl, rfl⟩
  -- the row of a file that is there would not have been refused
  · rw [hsame] at hg
    refine Or.inl ⟨hg, fun heq => ?_⟩
    obtain ⟨k, t, hstored⟩ := Store.exists_upsertFile (f := loadedFile project owner f id)
      (Store.ownerExists_iff.mpr howner) hg (Store.samePlace_iff.mpr heq)
    exact hrefused _ hstored

theorem World.TakesOver.isRevision (h : w.TakesOver project owner f w') :
    w'.store.IsRevision = w.store.IsRevision := by
  rw [h.store]
  rfl

theorem World.TakesOver.holds (h : w.TakesOver project owner f w')
    (hproject : '/' ∉ project.toList) (howner : ∀ id, owner = some id →
      ∃ c ∈ w.store.components, c.id = id)
    (hw : w.store.Consistent) (harch : w.Archived) {g : ProjectFile} (hg : g ∈ w'.store.files) :
    w'.Holds g := by
  rcases h.file_cases howner hg with ⟨hold, hne⟩ | ⟨hkey, hdata⟩
  · have hholds := harch.files g hold
    exact ⟨h.isRevision ▸ hholds.key, h.backs_of_ne
      (Store.Places.ne_fileKey hholds.key hw harch.toSlashless hproject hold hne) hholds.backed⟩
  · exact ⟨Or.inl hkey, hdata.backs⟩

theorem World.TakesOver.archived (h : w.TakesOver project owner f w')
    (hproject : '/' ∉ project.toList) (hadmits : w.store.Admits project owner f)
    (hw : w.store.Consistent) (harch : w.Archived) : w'.Archived := by
  have hslash : w'.store.Slashless := by
    rw [h.store]
    exact ⟨harch.projects, harch.drafts⟩
  have hsettled : w'.store.IsSettled = w.store.IsSettled := by
    rw [h.store]
    rfl
  refine ⟨hslash, fun g hg => h.holds hproject hadmits.owner hw harch hg, fun row hrow => ?_⟩
  have hmem : row ∈ w.store.snapshotFiles := by
    rw [h.store] at hrow
    exact hrow
  have hshows := harch.snapshots row hmem
  refine ⟨hsettled ▸ hshows.key, ?_⟩
  by_cases hkey : row.file.storageKey = fileKey project f.path
  · exact fun digest hdigest => ⟨f.content, (h.get? _).trans (if_pos hkey),
      hadmits.snapshots row hmem hkey digest hdigest⟩
  · exact h.backs_of_ne hkey hshows.backed

theorem World.Loads.archived {tree : FileTree} {owner : String → Option String}
    (h : World.Loads setup project tree owner w w') (hproject : '/' ∉ project.toList)
    (hadmits : ∀ f ∈ Scan.run tree "" setup.settings.excludeSensitive,
      w.store.Admits project (owner f.path) f)
    (hw : w.store.Intact) (harch : w.Archived) : w'.Archived := by
  suffices w'.store.Intact ∧ w'.Archived from this.2
  induction h with
  | refl => exact ⟨hw, harch⟩
  | tail hbefore hone ih =>
    obtain ⟨f, hf, hone⟩ := hone
    have hhere := hadmits f hf
    refine ⟨hone.intact ih.1, hone.archived hproject ?_ ih.1.toConsistent ih.2⟩
    rw [World.Loads.store hbefore]
    exact ⟨hhere.owner, hhere.snapshots⟩

end Load

/-! ## Actions that leave what is settled alone -/

/-- Identifiers of projects and drafts that are entered have no slash. Files come into the tables
by loads only, which name components that are there. The object store keeps what it has. -/
def Action.IsOrderly (setup : Setup) (w : World) : Action → Prop
  | enter (.project p) => '/' ∉ p.id.toList
  | enter (.draft d) => '/' ∉ d.id.toList
  | enter (.file _) => False
  | objects change => ∀ o, change w.objects = .ok o →
      ∀ key data, w.objects.get? key = some data → o.get? key = some data
  | load project tree owner => '/' ∉ project.toList ∧
      ∀ f ∈ Scan.run tree "" setup.settings.excludeSensitive,
        ∀ id, owner f.path = some id → ∃ c ∈ w.store.components, c.id = id
  | _ => True

/-- What is settled stays so, except where files are taken over or drafts are promoted. -/
theorem Effect.leaves_or (h : Effect setup w a w') (hw : w.store.Consistent)
    (hslash : w.store.Slashless) (horderly : a.IsOrderly setup w) :
    w.Leaves w' ∨
      (∃ project tree owner, a = .load project tree owner ∧
        World.Loads setup project tree owner w w') ∨
      ∃ r pairs v, Promotes setup r pairs w v ∧ v.Alike w' := by
  cases h with
  | aside _ alike =>
    exact Or.inl (.of_sameContent alike.store.toSameContent alike.objects hslash)
  | @enter row t enters =>
    refine Or.inl ?_
    cases row with
    | project p =>
      cases enters
      refine ⟨⟨List.subset_append_left _ _, fun _ hd _ => hd, fun _ _ _ hd => hd⟩,
        ⟨fun q hq => ?_, hslash.drafts⟩, rfl, rfl⟩
      rcases List.mem_append.mp hq with hq | hq
      · exact hslash.projects q hq
      · exact List.mem_singleton.mp hq ▸ horderly
    | draft d =>
      cases enters
      refine ⟨⟨List.Subset.refl _, fun _ hd _ => List.mem_append_left _ hd, fun _ _ _ hd => hd⟩,
        ⟨hslash.projects, fun e he => ?_⟩, rfl, rfl⟩
      rcases List.mem_append.mp he with he | he
      · exact hslash.drafts e he
      · exact List.mem_singleton.mp he ▸ horderly
    | file f => exact horderly.elim
    | contributor c => exact .of_sameContent enters.toSameContent rfl hslash
    | edge project e => exact .of_sameContent enters.toSameContent rfl hslash
    | _ =>
      cases enters
      exact .of_sameContent ⟨rfl, rfl, rfl, rfl⟩ rfl hslash
  | objects changed =>
    exact Or.inl ⟨⟨List.Subset.refl _, fun _ hd _ => hd,
      fun key _ data hdata => horderly _ changed key data hdata⟩, hslash, rfl, rfl⟩
  | load loads => exact Or.inr (Or.inl ⟨_, _, _, rfl, loads⟩)
  | analyze analyzes => exact Or.inl (.of_sameContent analyzes.sameContent analyzes.objects hslash)
  | approve _ _ approves => exact Or.inr (Or.inr ⟨_, _, _, approves.promotes, approves.alike⟩)
  | retract _ _ retracted =>
    have hsame := retracted.store
    exact Or.inl ⟨retracted.retains hw hslash, hsame ▸ hslash, by rw [hsame], by rw [hsame]⟩
  | reject _ _ _ written objects =>
    obtain ⟨time, hstore⟩ := written
    refine Or.inl (.of_sameContent ?_ objects hslash)
    rw [hstore]
    exact ⟨rfl, rfl, rfl, rfl⟩

/-! ## Runs -/

/-- Identifiers of projects and drafts that are entered have no slash. Files come into the tables
by loads only, which bring no other content for a file that a snapshot names. The object store
keeps what it has. -/
def Action.IsCareful (setup : Setup) (w : World) : Action → Prop
  | enter (.project p) => '/' ∉ p.id.toList
  | enter (.draft d) => '/' ∉ d.id.toList
  | enter (.file _) => False
  | objects change => ∀ o, change w.objects = .ok o →
      ∀ key data, w.objects.get? key = some data → o.get? key = some data
  | load project tree owner => '/' ∉ project.toList ∧
      ∀ f ∈ Scan.run tree "" setup.settings.excludeSensitive,
        w.store.Admits project (owner f.path) f
  | _ => True

theorem Action.IsCareful.isOrderly (h : a.IsCareful setup w) : a.IsOrderly setup w := by
  cases a with
  | enter row => cases row <;> exact h
  | load project tree owner => exact ⟨h.1, fun f hf => (h.2 f hf).owner⟩
  | _ => exact h

/-- Each action of a run is careful where it is done. -/
def IsCarefulRun (setup : Setup) : World → List Action → Prop
  | _, [] => True
  | w, a :: actions => a.IsCareful setup w ∧ IsCarefulRun setup (step setup w a) actions

theorem Effect.archived (h : Effect setup w a w') (hw : w.store.Intact)
    (hcareful : a.IsCareful setup w) (harch : w.Archived) : w'.Archived := by
  have hc := hw.toConsistent
  rcases h.leaves_or hc harch.toSlashless hcareful.isOrderly with
    hleaves | ⟨project, tree, owner, rfl, hloads⟩ | ⟨r, pairs, v, hpromotes, halike⟩
  · exact harch.left hc hleaves
  · exact hloads.archived hcareful.1 hcareful.2 hw harch
  · obtain ⟨time, snapshot, hcommit⟩ := hpromotes.written
    have hv := hpromotes.archived hc harch
    exact hv.left (hc.commitApproval hcommit)
      (.of_sameContent halike.store.toSameContent halike.objects hv.toSlashless)

/-- What a snapshot says is never changed. -/
theorem Effect.snapshotFiles (h : Effect setup w a w') :
    w.store.snapshotFiles ⊆ w'.store.snapshotFiles := by
  have hsame {t : Store} (ht : t.snapshotFiles = w.store.snapshotFiles) :
      w.store.snapshotFiles ⊆ t.snapshotFiles :=
    ht ▸ List.Subset.refl _
  cases h with
  | aside _ alike => exact hsame alike.store.snapshotFiles
  | @enter row t enters =>
    cases row with
    | file f =>
      obtain ⟨id, hrow⟩ := enters
      exact hsame ((congrArg Store.snapshotFiles (Store.eq_of_upsertFile hrow)).trans rfl)
    | contributor c => exact hsame enters.snapshotFiles
    | edge project e => exact hsame enters.snapshotFiles
    | _ =>
      cases enters
      exact hsame rfl
  | objects => exact hsame rfl
  | load loads => exact hsame ((congrArg Store.snapshotFiles loads.store).trans rfl)
  | analyze analyzes => exact hsame analyzes.sameContent.snapshotFiles
  | @approve _ r pairs v _ action passed approves =>
    obtain ⟨time, snapshot, hcommit⟩ := approves.promotes.written
    rw [approves.alike.store.snapshotFiles, Store.snapshotFiles_commitApproval hcommit]
    exact List.subset_append_left _ _
  | retract _ _ retracted => exact hsame (congrArg Store.snapshotFiles retracted.store)
  | reject _ _ _ written =>
    obtain ⟨time, hstore⟩ := written
    exact hsame ((congrArg Store.snapshotFiles hstore).trans rfl)

theorem snapshotFiles_run (h : w.store.Intact) (actions : List Action) :
    w.store.snapshotFiles ⊆ (run setup w actions).store.snapshotFiles := by
  induction actions generalizing w with
  | nil => exact List.Subset.refl _
  | cons a actions ih =>
    exact List.Subset.trans (effect_step setup h a).snapshotFiles
      (ih ((grows_step setup w a).intact h))

theorem archived_run (h : w.store.Intact) (harch : w.Archived) {actions : List Action}
    (hcareful : IsCarefulRun setup w actions) : (run setup w actions).Archived := by
  induction actions generalizing w with
  | nil => exact harch
  | cons a actions ih =>
    exact ih ((grows_step setup w a).intact h)
      ((effect_step setup h a).archived h hcareful.1 harch) hcareful.2

theorem archived_empty (h : w.store = {}) : w.Archived := by
  have hnone {α : Type} {P : α → Prop} {rows : List α} (hrows : rows = []) : ∀ x ∈ rows, P x := by
    intro x hx
    rw [hrows] at hx
    cases hx
  exact ⟨⟨hnone (h ▸ rfl), hnone (h ▸ rfl)⟩, hnone (h ▸ rfl), hnone (h ▸ rfl)⟩

/-- What an approval records stays recorded in a careful run, and under each key there is the
content with the digest. -/
theorem snapshots_readable (h : w.store = {}) (before after : List Action)
    (hcareful : IsCarefulRun setup w (before ++ after)) {row : StoredSnapshotFile}
    (hrow : row ∈ (run setup w before).store.snapshotFiles) {digest : String}
    (hdigest : row.file.hash = some digest) :
    row ∈ (run setup w (before ++ after)).store.snapshotFiles ∧
      ∃ data, (run setup w (before ++ after)).objects.get? row.file.storageKey = some data ∧
        Digest.sha256 data = digest := by
  have hempty : w.store.Intact := h ▸ Store.intact_empty
  have hstays : row ∈ (run setup w (before ++ after)).store.snapshotFiles := by
    rw [run_append]
    exact snapshotFiles_run ((grows_run before).intact hempty) after hrow
  exact ⟨hstays, ((archived_run hempty (archived_empty h) hcareful).snapshots row hstays).backed
    digest hdigest⟩

/-! ## A file that is loaded twice -/

/-- A directory with one source file. -/
def sampleTree (content : Bytes) : FileTree := [("a.ts", .file content)]

/-- A directory without ignore files has no rules. -/
theorem layerAt_plain {tree : FileTree} {directory : List String} (depth : Nat)
    (h : ∀ name ∈ Scan.ignoreFiles, tree.entry? (directory ++ [name]) = none) :
    Scan.layerAt tree directory depth = ⟨depth, [[], [], []]⟩ := by
  have hignored (name : String) (hname : name ∈ Scan.ignoreFiles) :
      ((tree.content? directory name).map IgnoreRule.ofFile).getD [] = [] := by
    have hne : ¬(name = "" ∨ name = ".") ∧ name ≠ ".." := by
      revert name
      decide
    rw [FileTree.content?, FileTree.locate.eq_def]
    dsimp only
    rw [if_neg hne.1, if_neg hne.2, List.reverse_cons, List.reverse_reverse, h name hname]
    rfl
  rw [Scan.layerAt, List.map_congr_left hignored]
  rfl

/-- What a scan of a whole tree walks through. -/
theorem scan_whole (tree : FileTree) :
    Scan.run tree "" true = Ordered.sortBy (fun a b => decide (a.path ≤ b.path))
      ((Scan.walkAll tree [] ⟨sensitiveRules, [Scan.layerAt tree [] 0]⟩ [] tree).filterMap
        Scan.report) := by
  have hsegments : Path.segments "" = [""] := by decide +kernel
  have hlocate : tree.locate FileTree.linkLimit [] [""] = some [] := by
    rw [FileTree.locate, if_pos (Or.inl rfl), FileTree.locate]
    rfl
  rw [Scan.run, hsegments, hlocate]
  rfl

theorem run_sampleTree (content : Bytes) :
    Scan.run (sampleTree content) "" true = [⟨"a.ts", .typeScript, content⟩] := by
  have hlayer : Scan.layerAt (sampleTree content) [] 0 = ⟨0, [[], [], []]⟩ := by
    refine layerAt_plain 0 fun name hname => ?_
    have hne : name ≠ "a.ts" := by
      revert name
      decide
    simp [FileTree.entry?, FileTree.find?, sampleTree, hne.symm]
  have hwalk (x : Scan.Context) (hx : x.admits ["a.ts"] false = true) :
      Scan.walkAll (sampleTree content) [] x [] (sampleTree content) = [(["a.ts"], content)] := by
    simp [sampleTree, Scan.walkAll, Scan.walk, hx]
  have hreport : Scan.report (["a.ts"], content) = some ⟨"a.ts", .typeScript, content⟩ := by
    have hpath : Scan.pathText ["a.ts"] = "a.ts" := by decide +kernel
    have hlanguage : Language.detect "a.ts" = some .typeScript := by decide +kernel
    simp only [Scan.report, hpath, hlanguage, Option.map_some]
  rw [scan_whole, hlayer, hwalk _ (by decide +kernel), List.filterMap_cons, hreport]
  exact List.mergeSort_singleton _

/-- The directory is loaded for the core. -/
def sampleLoad (content : Bytes) : Action := .load "shop" (sampleTree content) fun _ => some "core"

/-- A load of one file takes it over. -/
theorem step_load_one {tree : FileTree} {f : ScannedFile} (hscan : Scan.run tree "" true = [f])
    (project : String) (owner : String → Option String) (w : World) :
    step sampleSetup w (.load project tree owner) =
      (exec (loadFile project (owner f.path) f) w).2 := by
  show (exec (loadDirectory sampleSetup project tree owner) w).2 = _
  rw [loadDirectory, show sampleSetup.settings.excludeSensitive = true from rfl, hscan]
  show (exec (((loadFile _ _ _) >>= fun _ => pure PUnit.unit) >>= fun _ => pure _) w).2 = _
  rw [exec_bind, exec_bind]
  rcases exec (loadFile project (owner f.path) f) w with ⟨_ | _, v⟩ <;> rfl

theorem step_sampleLoad (w : World) (content : Bytes) :
    step sampleSetup w (sampleLoad content) =
      (exec (loadFile "shop" (some "core") ⟨"a.ts", .typeScript, content⟩) w).2 :=
  step_load_one (run_sampleTree content) "shop" _ w

theorem isCareful_sampleLoad {content : Bytes}
    (howner : w.store.components.any (·.id = "core") = true)
    (hkeys : ∀ row ∈ w.store.snapshotFiles, row.file.storageKey ≠ fileKey "shop" "a.ts") :
    (sampleLoad content).IsCareful sampleSetup w := by
  refine ⟨by decide, fun f hf => ?_⟩
  rw [show sampleSetup.settings.excludeSensitive = true from rfl, run_sampleTree,
    List.mem_singleton] at hf
  rw [hf]
  refine ⟨?_, fun row hrow hkey => absurd hkey (hkeys row hrow)⟩
  rintro id ⟨⟩
  obtain ⟨c, hc, hid⟩ := List.any_eq_true.mp howner
  exact ⟨c, hc, of_decide_eq_true hid⟩

/-- The project is entered and loaded. -/
def sampleEntered : List Action :=
  [.enter (.project sampleShop),
    .enter (.component { id := "core", project := "shop", name := "Core" }), sampleLoad [1]]

/-- A request is approved. -/
def sampleDecided : List Action :=
  [.create "shop" "core" "ana" "Prices" "" true, .analyze (idOf 1), .approve (idOf 1) "olga"]

/-- A draft of the loaded file. -/
def sampleRevised : Draft := { sampleDraft with file := idOf 0 }

/-- What the approval makes of the draft is still there when the project was loaded again. -/
theorem sample_snapshots_readable :
    let before := sampleEntered ++ .enter (.draft sampleRevised) :: sampleDecided
    let row : StoredSnapshotFile := ⟨idOf 2, idOf 0, "a.ts",
      revisionKey "shop" sampleRevised.id "a.ts",
      some (Digest.sha256 (Utf8.encode sampleRevised.content))⟩
    IsCarefulRun sampleSetup { clock := ⟨0⟩ } (before ++ [sampleLoad [2]]) ∧
    row ∈ (run sampleSetup { clock := ⟨0⟩ } before).store.snapshotFiles ∧
    row ∈ (run sampleSetup { clock := ⟨0⟩ } (before ++ [sampleLoad [2]])).store.snapshotFiles ∧
      ∃ data, (run sampleSetup { clock := ⟨0⟩ } (before ++ [sampleLoad [2]])).objects.get?
        row.file.storageKey = some data ∧
          Digest.sha256 data = Digest.sha256 (Utf8.encode sampleRevised.content) := by
  intro before row
  have hcareful : IsCarefulRun sampleSetup { clock := ⟨0⟩ } (before ++ [sampleLoad [2]]) := by
    have hproject : '/' ∉ sampleShop.id.toList := by decide
    have hdraft : '/' ∉ sampleRevised.id.toList := by decide
    refine ⟨hproject, trivial, isCareful_sampleLoad (by decide +kernel) (by decide +kernel), hdraft,
      trivial, trivial, trivial, isCareful_sampleLoad ?_ ?_, trivial⟩
    · rw [step_sampleLoad]
      decide +kernel
    · rw [step_sampleLoad]
      decide +kernel
  have hrow : row ∈ (run sampleSetup { clock := ⟨0⟩ } before).store.snapshotFiles := by
    simp only [before, sampleEntered, run, List.foldl, List.cons_append, List.nil_append,
      step_sampleLoad]
    decide +kernel
  exact ⟨hcareful, hrow, snapshots_readable rfl before [sampleLoad [2]] hcareful hrow rfl⟩

/-- Without a draft the snapshot names the uploaded file, and a load of other content leaves none
with the digest. -/
theorem sample_snapshot_overwritten :
    let before := sampleEntered ++ sampleDecided
    let v := run sampleSetup { clock := ⟨0⟩ } (before ++ [sampleLoad [2]])
    '/' ∉ sampleShop.id.toList ∧
    ∃ row ∈ (run sampleSetup { clock := ⟨0⟩ } before).store.snapshotFiles,
      row.file.hash = some (Digest.sha256 [1]) ∧ row ∈ v.store.snapshotFiles ∧
        ¬∃ data, v.objects.get? row.file.storageKey = some data ∧
          Digest.sha256 data = Digest.sha256 [1] := by
  intro before v
  let row : StoredSnapshotFile :=
    ⟨idOf 2, idOf 0, "a.ts", fileKey "shop" "a.ts", some (Digest.sha256 [1])⟩
  have hruns : row ∈ (run sampleSetup { clock := ⟨0⟩ } before).store.snapshotFiles ∧
      row ∈ v.store.snapshotFiles ∧ v.objects.get? row.file.storageKey = some [2] := by
    simp only [before, v, sampleEntered, sampleDecided, run, List.foldl, List.cons_append,
      List.nil_append, step_sampleLoad]
    decide +kernel
  obtain ⟨hrow, hstays, hget⟩ := hruns
  refine ⟨by decide, row, hrow, rfl, hstays, ?_⟩
  rintro ⟨data, hdata, hsha⟩
  rw [Option.some.inj (hdata.symm.trans hget)] at hsha
  exact absurd hsha (by decide +kernel)

end ChangeImpact
