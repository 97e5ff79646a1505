import ChangeImpact.Proofs.Workflow.Snapshots

/-!
# Committed files match their bytes

The row of a file tells the digest and the length of its content and the key under which the
content is stored. Content and rows are written one after the other, and a failed approval
removes content again, but at every moment the row of a file with a digest tells what is there.
-/

namespace ChangeImpact

open Operation

variable {setup : Setup} {w w' : World} {a : Action}

/-- A file that has a digest has its content under a key of its own. -/
structure World.Commits (w : World) (f : ProjectFile) : Prop where
  placed : w.store.Places f
  content : ∀ digest, f.hash = some digest → ∃ data, w.Matches f data

/-- The content of all files is there as their rows tell. -/
structure World.Committed (w : World) : Prop extends w.store.Slashless where
  files : ∀ f ∈ w.store.files, w.Commits f

theorem World.Matches.imp {f : ProjectFile} {data : Bytes} (h : w.Matches f data)
    (hget : w.objects.get? f.storageKey = some data → w'.objects.get? f.storageKey = some data) :
    w'.Matches f data :=
  ⟨hget h.content, h.hash, h.size⟩

theorem World.Commits.retained {f : ProjectFile} (h : w.Commits f) (hw : w.store.Consistent)
    (hf : f ∈ w.store.files) (hr : w.Retains w') : w'.Commits f := by
  refine ⟨hr.places h.placed, fun digest hdigest => ?_⟩
  obtain ⟨data, hdata⟩ := h.content digest hdigest
  exact ⟨data, hdata.imp (hr.objects _ (h.placed.isSettled hw hf) data)⟩

/-- Symbols do not count. -/
theorem World.Matches.of_unparsed {f g : ProjectFile} {data : Bytes} (h : w.Matches f data)
    (heq : f.unparsed = g.unparsed) : w.Matches g data := by
  have hf : w.Matches f.unparsed data := ⟨h.content, h.hash, h.size⟩
  rw [heq] at hf
  exact ⟨hf.content, hf.hash, hf.size⟩

theorem World.Commits.of_unparsed {f g : ProjectFile} (h : w.Commits f)
    (heq : f.unparsed = g.unparsed) : w.Commits g := by
  have hplaced : w.store.Places f.unparsed := h.placed
  rw [heq] at hplaced
  have hhash : f.hash = g.hash := congrArg (·.hash) heq
  refine ⟨hplaced, fun digest hdigest => ?_⟩
  obtain ⟨data, hdata⟩ := h.content digest (hhash.trans hdigest)
  exact ⟨data, hdata.of_unparsed heq⟩

theorem World.Committed.left (h : w.Committed) (hw : w.store.Consistent) (hl : w.Leaves w') :
    w'.Committed := by
  refine ⟨hl.slashless, fun f hf => ?_⟩
  obtain ⟨g, hg, heq⟩ := hl.exists_file hf
  exact ((h.files g hg).retained hw hg hl.toRetains).of_unparsed heq

/-! ## Approvals and loads -/

theorem Promotes.committed_files {r : ChangeRequest} {pairs : List (ProjectFile × Draft)}
    (h : Promotes setup r pairs w w') (hw : w.store.Consistent) (hc : w.Committed) :
    w'.Committed := by
  refine ⟨⟨h.projects_eq ▸ hc.projects, fun d hd => ?_⟩, fun f hf => ?_⟩
  · rw [h.drafts_eq] at hd
    obtain ⟨e, he, rfl⟩ := List.mem_map.mp hd
    rw [Draft.id_promote]
    exact hc.drafts e he
  · rcases h.file_cases hw hc.toSlashless hf with hold | ⟨hkey, hdata⟩
    · exact (hc.files f hold).retained hw hold (h.retains hw hc.toSlashless)
    · exact ⟨Or.inr hkey, fun _ _ => hdata⟩

theorem World.TakesOver.committed {project : String} {owner : Option String} {f : ScannedFile}
    (h : w.TakesOver project owner f w') (hproject : '/' ∉ project.toList)
    (howner : ∀ id, owner = some id → ∃ c ∈ w.store.components, c.id = id)
    (hw : w.store.Consistent) (hc : w.Committed) : w'.Committed := by
  refine ⟨by rw [h.store]; exact ⟨hc.projects, hc.drafts⟩, fun g hg => ?_⟩
  rcases h.file_cases howner hg with ⟨hold, hne⟩ | ⟨hkey, hdata⟩
  · have hcommits := hc.files g hold
    have hkey : g.storageKey ≠ fileKey project f.path :=
      hcommits.placed.ne_fileKey hw hc.toSlashless hproject hold hne
    refine ⟨hcommits.placed.imp_right fun hrev => h.isRevision ▸ hrev, fun digest hdigest => ?_⟩
    obtain ⟨data, hdata⟩ := hcommits.content digest hdigest
    exact ⟨data, hdata.imp fun hget => (h.get? _).trans ((if_neg hkey).trans hget)⟩
  · exact ⟨Or.inl hkey, fun _ _ => ⟨_, hdata⟩⟩

/-- A load that stops on the way leaves what it took over until then. -/
theorem World.Loads.committed {project : String} {tree : FileTree}
    {owner : String → Option String} (h : World.Loads setup project tree owner w w')
    (horderly : (Action.load project tree owner).IsOrderly setup w) (hw : w.store.Intact)
    (hc : w.Committed) : w'.Committed := by
  suffices w'.store.Intact ∧ w'.Committed from this.2
  induction h with
  | refl => exact ⟨hw, hc⟩
  | tail hbefore hone ih =>
    obtain ⟨f, hf, hone⟩ := hone
    refine ⟨hone.intact ih.1, hone.committed horderly.1 ?_ ih.1.toConsistent ih.2⟩
    rw [World.Loads.store hbefore]
    exact horderly.2 f hf

/-! ## Runs -/

/-- Each action of a run is orderly where it is done. -/
def IsOrderlyRun (setup : Setup) : World → List Action → Prop
  | _, [] => True
  | w, a :: actions => a.IsOrderly setup w ∧ IsOrderlyRun setup (step setup w a) actions

theorem Effect.committed (h : Effect setup w a w') (hw : w.store.Intact)
    (horderly : a.IsOrderly setup w) (hc : w.Committed) : w'.Committed := by
  have hcons := hw.toConsistent
  rcases h.leaves_or hcons hc.toSlashless horderly with
    hleaves | ⟨project, tree, owner, rfl, hloads⟩ | ⟨r, pairs, v, hpromotes, halike⟩
  · exact hc.left hcons hleaves
  · exact hloads.committed horderly hw hc
  · obtain ⟨time, snapshot, hcommit⟩ := hpromotes.written
    have hv := hpromotes.committed_files hcons hc
    exact hv.left (hcons.commitApproval hcommit)
      (.of_sameContent halike.store.toSameContent halike.objects hv.toSlashless)

theorem committed_run (h : w.store.Intact) (hc : w.Committed) {actions : List Action}
    (horderly : IsOrderlyRun setup w actions) : (run setup w actions).Committed := by
  induction actions generalizing w with
  | nil => exact hc
  | cons a actions ih =>
    exact ih ((grows_step setup w a).intact h)
      ((effect_step setup h a).committed h horderly.1 hc) horderly.2

theorem committed_empty (h : w.store = {}) : w.Committed := by
  have hslash := (archived_empty h).toSlashless
  refine ⟨hslash, fun f hf => ?_⟩
  rw [h] at hf
  cases hf

/-- From empty tables on, whatever is loaded, promoted, refused or taken back: the digest in the
row of a file is that of the object under the key in the row, and the size is its length. -/
theorem committed_matches (h : w.store = {}) {actions : List Action}
    (horderly : IsOrderlyRun setup w actions) {f : ProjectFile}
    (hf : f ∈ (run setup w actions).store.files) {digest : String} (hdigest : f.hash = some digest) :
    ∃ data, (run setup w actions).objects.get? f.storageKey = some data ∧
      Digest.sha256 data = digest ∧ f.size = data.length := by
  have hempty : w.store.Intact := h ▸ Store.intact_empty
  have hcommits := (committed_run hempty (committed_empty h) horderly).files f hf
  obtain ⟨data, hdata⟩ := hcommits.content digest hdigest
  exact ⟨data, hdata.content, Option.some.inj (hdata.hash.symm.trans hdigest), hdata.size⟩

/-! ## Loads and approvals of two files -/

theorem isOrderly_sampleLoad {content : Bytes}
    (howner : w.store.components.any (·.id = "core") = true) :
    (sampleLoad content).IsOrderly sampleSetup w := by
  refine ⟨by decide, ?_⟩
  rintro f - id ⟨⟩
  obtain ⟨c, hc, hid⟩ := List.any_eq_true.mp howner
  exact ⟨c, hc, of_decide_eq_true hid⟩

/-- Whether the object store takes anything. -/
def sampleRefusal (refuses : Bool) : Action :=
  .objects fun o => .ok { o with refusesPut := fun _ => refuses }

/-- A project is loaded twice; the approval of a draft is refused and then goes through. -/
def sampleRetried : List Action :=
  sampleEntered ++ [sampleLoad [2], .enter (.draft sampleRevised),
    .create "shop" "core" "ana" "Prices" "" true, .analyze (idOf 2), sampleRefusal true,
    .approve (idOf 2) "olga", sampleRefusal false, .approve (idOf 2) "olga"]

/-- The row of the file tells the draft in the end. -/
theorem sample_committed_matches :
    let v := run sampleSetup { clock := ⟨0⟩ } sampleRetried
    IsOrderlyRun sampleSetup { clock := ⟨0⟩ } sampleRetried ∧
    ∃ f ∈ v.store.files, f.hash = some (Digest.sha256 (Utf8.encode sampleRevised.content)) ∧
      ∃ data, v.objects.get? f.storageKey = some data ∧
        Digest.sha256 data = Digest.sha256 (Utf8.encode sampleRevised.content) ∧
          f.size = data.length := by
  intro v
  have horderly : IsOrderlyRun sampleSetup { clock := ⟨0⟩ } sampleRetried := by
    have hproject : '/' ∉ sampleShop.id.toList := by decide
    have hdraft : '/' ∉ sampleRevised.id.toList := by decide
    have hrefusal (x : World) (refuses : Bool) :
        (sampleRefusal refuses).IsOrderly sampleSetup x := by
      rintro o ⟨⟩ key data hdata
      exact hdata
    refine ⟨hproject, trivial, isOrderly_sampleLoad (by decide +kernel), isOrderly_sampleLoad ?_,
      hdraft, trivial, trivial, hrefusal _ _, trivial, hrefusal _ _, trivial, trivial⟩
    rw [step_sampleLoad]
    decide +kernel
  have hfile : v.store.files.any
      (·.hash = some (Digest.sha256 (Utf8.encode sampleRevised.content))) = true := by
    simp only [v, sampleRetried, sampleEntered, run, List.foldl, List.cons_append,
      List.nil_append, step_sampleLoad]
    decide +kernel
  obtain ⟨f, hf, hhash⟩ := List.any_eq_true.mp hfile
  have hdigest := of_decide_eq_true hhash
  exact ⟨horderly, f, hf, hdigest, committed_matches rfl horderly hf hdigest⟩

/-- A directory with one source file in a subdirectory. -/
def sampleNested (content : Bytes) : FileTree := [("x", .directory (sampleTree content))]

theorem run_sampleNested (content : Bytes) :
    Scan.run (sampleNested content) "" true = [⟨"x/a.ts", .typeScript, content⟩] := by
  have hnames : ∀ name ∈ Scan.ignoreFiles, name ≠ "x" ∧ name ≠ "a.ts" := by decide
  have houter : Scan.layerAt (sampleNested content) [] 0 = ⟨0, [[], [], []]⟩ := by
    refine layerAt_plain 0 fun name hname => ?_
    simp [FileTree.entry?, FileTree.find?, sampleNested, (hnames name hname).1.symm]
  have hinner : Scan.layerAt (sampleNested content) ["x"] 1 = ⟨1, [[], [], []]⟩ := by
    refine layerAt_plain 1 fun name hname => ?_
    simp [FileTree.entry?, FileTree.find?, FileTree.below, sampleNested, sampleTree,
      (hnames name hname).2.symm]
  have hwalk (x : Scan.Context) (hdirectory : x.admits ["x"] true = true)
      (hfile : Scan.Context.admits ⟨x.first, ⟨1, [[], [], []]⟩ :: x.layers⟩ ["x", "a.ts"] false =
        true) :
      Scan.walkAll (sampleNested content) [] x [] (sampleNested content) =
        [(["x", "a.ts"], content)] := by
    rw [show Scan.walkAll (sampleNested content) [] x [] (sampleNested content) =
      Scan.walk (sampleNested content) [] x ["x"] (.directory (sampleTree content)) ++ [] from rfl]
    simp [Scan.walk, sampleTree, Scan.walkAll, hdirectory, hinner, hfile]
  have hreport : Scan.report (["x", "a.ts"], content) =
      some ⟨"x/a.ts", .typeScript, content⟩ := by
    have hpath : Scan.pathText ["x", "a.ts"] = "x/a.ts" := by decide +kernel
    have hlanguage : Language.detect "x/a.ts" = some .typeScript := by decide +kernel
    simp only [Scan.report, hpath, hlanguage, Option.map_some]
  rw [scan_whole, houter, hwalk _ (by decide +kernel) (by decide +kernel), List.filterMap_cons,
    hreport]
  exact List.mergeSort_singleton _

/-- A draft whose identifier goes on where that of the other one ends. -/
def sampleSlashed : Draft := { sampleDraft with id := "d1/x", file := idOf 0, content := "other" }

/-- Two files are loaded for the core, and a draft of each is approved. -/
def sampleColliding : List Action :=
  sampleEntered ++
    [.create "shop" "core" "ana" "Prices" "" true, .create "shop" "core" "ana" "Rates" "" true,
      .analyze (idOf 1), .analyze (idOf 2), .load "shop" (sampleNested [2]) fun _ => some "core",
      .enter (.draft { sampleDraft with file := idOf 3 }), .approve (idOf 1) "olga",
      .enter (.draft sampleSlashed), .approve (idOf 2) "olga"]

/-- A slash in the identifier of a draft makes two drafts share a key, and the row of one file
tells what was stored over. -/
theorem sample_revision_overwritten :
    let v := run sampleSetup { clock := ⟨0⟩ } sampleColliding
    '/' ∉ sampleShop.id.toList ∧
    ∃ f ∈ v.store.files, f.hash = some (Digest.sha256 (Utf8.encode sampleDraft.content)) ∧
      ¬∃ data, v.objects.get? f.storageKey = some data ∧
        Digest.sha256 data = Digest.sha256 (Utf8.encode sampleDraft.content) ∧
          f.size = data.length := by
  intro v
  have hruns : v.store.files.any (fun f =>
      f.hash = some (Digest.sha256 (Utf8.encode sampleDraft.content)) &&
        v.objects.get? f.storageKey = some (Utf8.encode sampleSlashed.content)) = true := by
    simp only [v, sampleColliding, sampleEntered, run, List.foldl, List.cons_append,
      List.nil_append, step_sampleLoad, step_load_one (run_sampleNested [2])]
    decide +kernel
  obtain ⟨f, hf, hboth⟩ := List.any_eq_true.mp hruns
  obtain ⟨hhash, hget⟩ := Bool.and_eq_true_iff.mp hboth
  refine ⟨by decide, f, hf, of_decide_eq_true hhash, ?_⟩
  rintro ⟨data, hdata, hsha, -⟩
  rw [Option.some.inj (hdata.symm.trans (of_decide_eq_true hget))] at hsha
  exact absurd hsha (by decide +kernel)

end ChangeImpact
