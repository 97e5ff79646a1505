import ChangeImpact.Proofs.Graph.Current
import ChangeImpact.Proofs.Propagation
import ChangeImpact.Proofs.Workflow.Analysed
import ChangeImpact.Proofs.Workflow.Indexed
import ChangeImpact.Proofs.Workflow.Run

/-!
# Exactness of the analysis

Where the graph of a project is current, an analysis misses nobody and tells nobody in
vain. Every contributor of a component with an import that the drafts touch has exactly
one impact afterwards, and every impact comes from such an import.
-/

namespace ChangeImpact

open Operation

/-- The impacts of a request on one contributor of one component. -/
def Store.impactsOn (s : Store) (change component contributor : String) : List Impact :=
  s.impacts.filter fun i =>
    i.change = change ∧ (i.component, i.contributor) = (component, contributor)

/-- An active draft of the author of a request for a file of the component. -/
structure Store.Drafted (s : Store) (r : ChangeRequest) (f : ProjectFile) (d : Draft) : Prop where
  draft : d ∈ s.drafts
  author : d.author = r.author
  active : d.active = true
  file : f ∈ s.files
  named : f.id = d.file
  component : f.component = some r.component

namespace World

/-- The drafts for a request change an export. -/
def Changes (setup : Setup) (w : World) (r : ChangeRequest) (name : String) : Prop :=
  ∃ f d, w.store.Drafted r f d ∧ name ∈ draftedExports setup.grammar f d.content

/-- A draft for a request differs from the stored content of its file. -/
def Differs (w : World) (r : ChangeRequest) : Prop :=
  ∃ f d, w.store.Drafted r f d ∧
    (Diff.compare (committedText w.objects f) d.content).isEmpty = false

/-- A component is reached by a request: an edge leads from it to the component of the
request, and one of its files imports a file from there in a way that the drafts touch. -/
def Reaches (setup : Setup) (w : World) (r : ChangeRequest) (c : String) : Prop :=
  (c ≠ r.component ∧ ∃ row ∈ w.store.edges, row.project = r.project ∧ row.edge.source = c ∧
      row.edge.target = r.component) ∧
    w.store.Imports r.project c r.component fun i g =>
      i.TouchedBy g (w.Changes setup r) (w.Differs r)

end World

namespace Analysis

variable {setup : Setup} {w : World} {r : ChangeRequest} {a : Analysis}

/-- Every draft for a request is compared with its file. -/
theorem mem_compared (hw : w.store.Consistent) {x : DraftedFile} :
    x ∈ ((w.store.activeDrafts r.author r.component).filterMap fun d =>
        (w.store.files.find? (·.id = d.file)).map fun f =>
          compareDraft setup.grammar w.objects f d) ↔
      ∃ f d, w.store.Drafted r f d ∧ compareDraft setup.grammar w.objects f d = x := by
  rw [List.mem_filterMap]
  constructor
  · rintro ⟨d, hd, hx⟩
    obtain ⟨f, hf, rfl⟩ := Option.map_eq_some_iff.mp hx
    obtain ⟨hdraft, hauthor, hactive, g, hg, hgid, hcomponent⟩ := Store.mem_activeDrafts.mp hd
    obtain ⟨hfile, hid⟩ := hw.fileIds.find?_eq_some_iff.mp hf
    have hfg : g = f := hw.fileIds.eq_of_key_eq hg hfile (hgid.trans hid.symm)
    subst hfg
    exact ⟨g, d, ⟨hdraft, hauthor, hactive, hg, hgid, hcomponent⟩, rfl⟩
  · rintro ⟨f, d, hd, rfl⟩
    refine ⟨d, Store.mem_activeDrafts.mpr
      ⟨hd.draft, hd.author, hd.active, f, hd.file, hd.named, hd.component⟩, ?_⟩
    rw [hw.fileIds.find?_eq_some_iff.mpr ⟨hd.file, hd.named⟩, Option.map_some]

theorem Fits.mem_drafted (h : a.Fits setup w r) (hw : w.store.Consistent) {x : DraftedFile} :
    x ∈ a.drafted ↔
      ∃ f d, w.store.Drafted r f d ∧ compareDraft setup.grammar w.objects f d = x := by
  rw [h.drafted, mem_compared hw]

theorem Fits.mem_changed (h : a.Fits setup w r) (hw : w.store.Consistent) {name : String} :
    name ∈ a.changed ↔ w.Changes setup r name := by
  rw [changed, Ordered.mem_ofList, List.mem_flatMap]
  constructor
  · rintro ⟨x, hx, hname⟩
    obtain ⟨f, d, hd, rfl⟩ := (h.mem_drafted hw).mp hx
    exact ⟨f, d, hd, hname⟩
  · rintro ⟨f, d, hd, hname⟩
    exact ⟨_, (h.mem_drafted hw).mpr ⟨f, d, hd, rfl⟩, hname⟩

theorem Fits.differs_iff (h : a.Fits setup w r) (hw : w.store.Consistent) :
    a.differs = true ↔ w.Differs r := by
  rw [differs, List.any_eq_true]
  constructor
  · rintro ⟨x, hx, hdiff⟩
    obtain ⟨f, d, hd, rfl⟩ := (h.mem_drafted hw).mp hx
    exact ⟨f, d, hd, by simpa [compareDraft] using hdiff⟩
  · rintro ⟨f, d, hd, hdiff⟩
    refine ⟨_, (h.mem_drafted hw).mpr ⟨f, d, hd, rfl⟩, ?_⟩
    rw [compareDraft, hdiff]
    rfl

/-- The analysis lists exactly the components that the request reaches. -/
theorem Fits.mem_affected (h : a.Fits setup w r) (hw : w.store.Consistent) {c : String} :
    c ∈ a.affected.map (·.component) ↔ w.Reaches setup r c := by
  have hnames : (· ∈ a.changed) = w.Changes setup r := funext fun _ => propext (h.mem_changed hw)
  have hcontent : (a.differs = true) = w.Differs r := propext (h.differs_iff hw)
  have hedges : (∃ e ∈ w.store.edgesInto r.project r.component, e.source = c ∧
      e.target = r.component) ↔
      ∃ row ∈ w.store.edges, row.project = r.project ∧ row.edge.source = c ∧
        row.edge.target = r.component := by
    constructor
    · rintro ⟨e, he, hsource, -⟩
      obtain ⟨row, hrow, hproject, htarget, rfl⟩ := Store.mem_edgesInto.mp he
      exact ⟨row, hrow, hproject, hsource, htarget⟩
    · rintro ⟨row, hrow, hproject, hsource, htarget⟩
      exact ⟨_, Store.mem_edgesInto.mpr ⟨row, hrow, hproject, htarget, rfl⟩, hsource, htarget⟩
  have hreached : a.affected.map (·.component) = reachedBy r.component a.changed a.differs
      (w.store.edgesInto r.project r.component) (ExportIndex.build (w.store.indexed r.project)) :=
    congrArg _ h.affected
  rw [hreached, mem_reachedBy, hnames, hcontent, hedges,
    Store.imports_indexed hw fun _ _ _ => Iff.rfl]
  exact Iff.rfl

theorem Fits.nodup_affected (h : a.Fits setup w r) : (a.affected.map (·.component)).Nodup := by
  rw [h.affected]
  exact nodup_reachedBy

/-! ## The impacts of an analysis -/

theorem Fits.of_mem_impacts (h : a.Fits setup w r) {i : Impact} (hi : i ∈ a.impacts) :
    i.change = r.id ∧ i.isResolved = false := by
  obtain ⟨x, -, time, id, rfl⟩ := Store.exists_left_of_forall₂ h.impacts hi
  exact ⟨rfl, rfl⟩

/-- The impacts are on those that are to be told. -/
theorem Fits.map_impacts (h : a.Fits setup w r) :
    a.impacts.map (fun i => (i.component, i.contributor)) =
      told a.affected fun component => (w.store.contributorsOf component).map (·.user) := by
  rw [told]
  refine Store.map_eq_of_forall₂ h.impacts ?_
  rintro x _ ⟨time, id, rfl⟩
  rfl

theorem Fits.mem_map_impacts (h : a.Fits setup w r) (hw : w.store.Consistent) {c user : String} :
    (c, user) ∈ a.impacts.map (fun i => (i.component, i.contributor)) ↔
      w.Reaches setup r c ∧ ∃ m ∈ w.store.contributors, m.component = c ∧ m.user = user := by
  rw [h.map_impacts, mem_told, h.mem_affected hw, List.mem_map]
  refine and_congr_right fun _ => exists_congr fun m => ?_
  rw [Store.mem_contributorsOf, and_assoc]

theorem Fits.keyed_impacts (h : a.Fits setup w r) :
    Store.Keyed (fun i : Impact => (i.component, i.contributor)) a.impacts := by
  rw [Store.Keyed, h.map_impacts]
  exact nodup_told h.nodup_affected

/-- Once they are added to a store without impacts of the request, each is the only one on
its contributor. -/
theorem Fits.impactsOn_eq (h : a.Fits setup w r) (hnone : ∀ i ∈ w.store.impacts, i.change ≠ r.id)
    {t : Store} (ht : t.impacts = w.store.impacts ++ a.impacts) {i : Impact} (hi : i ∈ a.impacts) :
    t.impactsOn r.id i.component i.contributor = [i] := by
  have hold : w.store.impacts.filter (fun j => j.change = r.id ∧
      (j.component, j.contributor) = (i.component, i.contributor)) = [] := by
    rw [List.filter_eq_nil_iff]
    intro j hj hd
    exact hnone j hj (of_decide_eq_true hd).1
  rw [Store.impactsOn, ht, List.filter_append, hold, List.nil_append,
    ← h.keyed_impacts.filter_eq_singleton hi]
  apply List.filter_congr
  intro j hj
  rw [decide_eq_decide, and_iff_right (h.of_mem_impacts hj).1]

end Analysis

/-! ## The store after an analysis -/

namespace Store

variable {s t : Store} {id : String} {is : List Impact} {flagged : List String} {now : Instant}

/-- An analysed request moves on to review when it has no impacts, and stays while they are
all open. -/
theorem exists_analysed (hk : Keyed (·.id) s.requests) {r : ChangeRequest} (hr : r ∈ s.requests)
    (h : s.commitAnalysis r.id is flagged now = .ok (true, t))
    (hopen : ∀ i ∈ t.impacts, i.change = r.id → i.isResolved = false) (time : Instant) :
    ∃ r' ∈ (t.review r.id time).requests, r'.id = r.id ∧
      ((∀ i ∈ t.impacts, i.change ≠ r.id) → r'.status = .pendingReview) ∧
      ((∃ i ∈ t.impacts, i.change = r.id) → r'.status = .analysisComplete) := by
  have hk' : Keyed (·.id) t.requests := by
    rw [requests_commitAnalysis h]
    exact hk.updateWhere fun _ _ => rfl
  obtain ⟨q, hq, hid, hs⟩ := exists_of_commitAnalysis h hr
  have hmem {i : Impact} : i ∈ (t.dossier q).impacts ↔ i ∈ t.impacts ∧ i.change = q.id :=
    mem_impacts_of_mem_dossiers (List.mem_map_of_mem hq)
  rw [← hid] at hopen ⊢
  rw [review_of_mem hk' hq]
  by_cases hres : (t.dossier q).isResolved = true
  · rw [if_pos ⟨hs, hres⟩]
    refine ⟨{ q with status := .pendingReview, updatedAt := time },
      mem_updateWhere.mpr ⟨q, hq, if_pos (decide_eq_true rfl)⟩, rfl, fun _ => rfl, ?_⟩
    rintro ⟨i, hi, hc⟩
    have hdone := Dossier.isResolved_iff.mp hres i (hmem.mpr ⟨hi, hc⟩)
    rw [hopen i hi hc] at hdone
    cases hdone
  · rw [if_neg fun h => hres h.2]
    refine ⟨q, hq, rfl, fun hnone => absurd ?_ hres, fun _ => hs⟩
    rw [Dossier.isResolved_iff]
    intro i hi
    exact absurd (hmem.mp hi).2 (hnone i (hmem.mp hi).1)

end Store

namespace World

/-- Each contributor of a component has one open impact on it, and it is flagged. -/
structure Told (w : World) (r : ChangeRequest) (w' : World) (c : String) : Prop where
  impacts : ∀ m ∈ w.store.contributors, m.component = c →
    ∃ i, w'.store.impactsOn r.id c m.user = [i] ∧ i.isResolved = false
  flag : ∀ k ∈ w.store.components, k.id = c → { k with status := .flagged } ∈ w'.store.components

/-- What an analysis of a request leaves behind. -/
structure Exact (setup : Setup) (w : World) (r : ChangeRequest) (w' : World) : Prop where
  /-- A component is told when it imports from the one of the request what binds everything,
  while there is any change, or an exported name that changes. -/
  complete : ∀ c, c ≠ r.component →
    (w.store.Imports r.project c r.component fun i g =>
      (i.bindsEverything = true ∧ ((∃ name, w.Changes setup r name) ∨ w.Differs r)) ∨
        ∃ name, w.Changes setup r name ∧ name ∈ confirmedSymbols i g) → w.Told r w' c
  /-- Every component that the request reaches is told. -/
  reached : ∀ c, w.Reaches setup r c → w.Told r w' c
  /-- An impact is the only one on a contributor of a component that the request reaches. -/
  sound : ∀ i ∈ w'.store.impacts, i.change = r.id →
    w.Reaches setup r i.component ∧
      (∃ m ∈ w.store.contributors, m.component = i.component ∧ m.user = i.contributor) ∧
      w'.store.impactsOn r.id i.component i.contributor = [i]
  /-- Components that are not reached stay as they are. -/
  unflagged : ∀ k ∈ w.store.components, ¬w.Reaches setup r k.id → k ∈ w'.store.components
  /-- The request waits for its impacts, or goes straight to review without any. -/
  status : ∃ r' ∈ w'.store.requests, r'.id = r.id ∧
    ((∀ i ∈ w'.store.impacts, i.change ≠ r.id) → r'.status = .pendingReview) ∧
    ((∃ i ∈ w'.store.impacts, i.change = r.id) → r'.status = .analysisComplete)
  /-- The impacts of other requests stay as they are. -/
  others : w'.store.impacts.filter (·.change ≠ r.id) = w.store.impacts

variable {setup : Setup} {w : World} {r : ChangeRequest}

/-- Where the graph is current, an import that the drafts touch and that binds everything or
a name that is known to be exported makes its component reached. -/
theorem reaches_of_imports (hw : w.store.Consistent) (hg : w.store.IsCurrent r.project)
    {c : String} (hc : c ≠ r.component)
    (h : w.store.Imports r.project c r.component fun i g =>
      (i.bindsEverything = true ∧ ((∃ name, w.Changes setup r name) ∨ w.Differs r)) ∨
        ∃ name, w.Changes setup r name ∧ name ∈ confirmedSymbols i g) :
    w.Reaches setup r c := by
  refine ⟨⟨hc, hg.exists_edge hw hc (h.imp ?_)⟩, h.imp ?_⟩
  · rintro i g (⟨hall, -⟩ | ⟨name, -, hname⟩)
    · exact Or.inl hall
    · exact Or.inr ⟨name, hname⟩
  · rintro i g (hall | ⟨name, hchanged, hname⟩)
    · exact Or.inl hall
    · by_cases hall : i.bindsEverything = true
      · exact Or.inl ⟨hall, Or.inl ⟨name, hchanged⟩⟩
      · exact Or.inr ⟨Bool.eq_false_iff.mpr hall, name, hchanged, Or.inr hname⟩

end World

/-- Indexing a project makes its graph current. -/
theorem indexProject_isCurrent {w : World} (h : w.store.Intact) (setup : Setup)
    (project : String) :
    Yields (indexProject setup project) w (fun _ => True) fun _ w' =>
      w'.store.IsCurrent project := by
  by_cases hp : ∃ p, w.store.project? project = .ok (some p)
  · obtain ⟨p, hp⟩ := hp
    refine Yields.imp (indexProject_succeeds h.toConsistent setup hp
      (Store.legible_of_readable h.readable project)) (fun _ hf => hf.elim) ?_
    rintro report w' ⟨-, hstore⟩
    rw [hstore]
    exact Store.isCurrent_withGraph
  · exact Yields.need (fun _ => trivial) fun p hp' => absurd ⟨p, hp'⟩ hp

/-- Where the graph of the project is current and a request has no impacts yet, an analysis
that succeeds leaves exactly the impacts that follow from the drafts and the imports. -/
theorem analyzeRequest_exact {setup : Setup} {w w' : World} {r : ChangeRequest}
    {report : ImpactReport} (hw : w.store.Consistent) (hg : w.store.IsCurrent r.project)
    (hr : r ∈ w.store.requests) (hnone : ∀ i ∈ w.store.impacts, i.change ≠ r.id)
    (he : exec (analyzeRequest setup r.id) w = (.ok report, w')) : w.Exact setup r w' := by
  obtain ⟨r', hr', hid, -, a, ha, ⟨s, time, time', hs, hstore⟩, -⟩ :=
    (analyzeRequest_yields setup r.id hw.requestIds (E := fun _ => True) (fun _ _ => trivial)
      (Or.inr fun _ => trivial)).of_ok he
  cases hw.requestIds.eq_of_key_eq hr' hr hid
  have hsame : w'.store.impacts = s.impacts := by rw [hstore, Store.impacts_review]
  have himpacts : w'.store.impacts = w.store.impacts ++ a.impacts :=
    hsame.trans (Store.impacts_commitAnalysis hs)
  have hmem {i : Impact} (hi : i ∈ w'.store.impacts) (hc : i.change = r.id) : i ∈ a.impacts := by
    rw [himpacts] at hi
    exact (List.mem_append.mp hi).resolve_left fun hold => hnone i hold hc
  have hcomponents := (congrArg Store.components hstore).trans
    (Store.components_review.trans (Store.components_commitAnalysis hs))
  have hflag {k : Component} : (a.affected.map (·.component)).contains k.id = true ↔
      w.Reaches setup r k.id := by
    rw [List.contains_iff_mem, ha.mem_affected hw]
  have htold (c : String) (hreach : w.Reaches setup r c) : w.Told r w' c := by
    refine ⟨fun m hm hmc => ?_, fun k hk hkc => ?_⟩
    · obtain ⟨i, hi, hkey⟩ :=
        List.mem_map.mp ((ha.mem_map_impacts hw).mpr ⟨hreach, m, hm, hmc, rfl⟩)
      obtain ⟨rfl, huser⟩ := Prod.mk.inj hkey
      rw [← huser]
      exact ⟨i, ha.impactsOn_eq hnone himpacts hi, (ha.of_mem_impacts hi).2⟩
    · rw [hcomponents, Store.mem_updateWhere]
      exact ⟨k, hk, if_pos (hflag.mpr (hkc ▸ hreach))⟩
  refine
    { complete := fun c hc himports => htold c (World.reaches_of_imports hw hg hc himports)
      reached := htold
      sound := fun i hi hc => ?_
      unflagged := fun k hk hn => ?_
      status := ?_
      others := ?_ }
  · have hin := hmem hi hc
    obtain ⟨hreach, hcontributor⟩ := (ha.mem_map_impacts hw).mp (List.mem_map_of_mem hin)
    exact ⟨hreach, hcontributor, ha.impactsOn_eq hnone himpacts hin⟩
  · rw [hcomponents, Store.mem_updateWhere]
    exact ⟨k, hk, if_neg fun hreach => hn (hflag.mp hreach)⟩
  · have hopen (i : Impact) (hi : i ∈ s.impacts) (hc : i.change = r.id) : i.isResolved = false :=
      (ha.of_mem_impacts (hmem (hsame ▸ hi) hc)).2
    rw [hsame, hstore]
    exact Store.exists_analysed hw.requestIds hr hs hopen time'
  · have hold : w.store.impacts.filter (·.change ≠ r.id) = w.store.impacts :=
      List.filter_eq_self.mpr fun i hi => decide_eq_true (hnone i hi)
    have hnew : a.impacts.filter (·.change ≠ r.id) = [] := by
      rw [List.filter_eq_nil_iff]
      intro i hi hne
      exact of_decide_eq_true hne (ha.of_mem_impacts hi).1
    rw [himpacts, List.filter_append, hold, hnew, List.append_nil]

/-- A file of another component that imports what the drafted file of the small project
exports. -/
def sampleCart : ProjectFile where
  id := "f2"
  project := "shop"
  component := some "ui"
  path := "ui/cart"
  storageKey := "projects/shop/files/ui/cart"
  symbols := some
    { path := "ui/cart"
      language := "text"
      imports := [{ source := "../core/price", symbols := ["total"], line := 3 }] }

/-- The small project with both files. -/
def sampleImporting : World := step sampleSetup sampleWorld (.enter (.file sampleCart))

/-- The small project with both files and the graph of them. -/
def sampleCurrent : World :=
  { sampleImporting with
    store := sampleImporting.store.withGraph "shop"
      (DependencyGraph.build (sampleImporting.store.indexed "shop")) }

theorem intact_sampleCurrent : sampleCurrent.store.Intact := by
  have h : sampleImporting.store.Intact := (reachable_sampleWorld.step _).intact
  exact h.replaceGraph (Store.replaceGraph_build h.toConsistent (by decide +kernel))

/-- The drafted export reaches the contributor of the other component. -/
theorem sample_exact :
    sampleCurrent.store.Consistent ∧ sampleCurrent.store.IsCurrent sampleRequest.project ∧
    sampleRequest ∈ sampleCurrent.store.requests ∧ sampleCurrent.store.impacts = [] ∧
    ∃ report w',
      exec (analyzeRequest sampleSetup sampleRequest.id) sampleCurrent = (.ok report, w') ∧
      sampleCurrent.Exact sampleSetup sampleRequest w' ∧
      ∃ i, w'.store.impactsOn sampleRequest.id "ui" "udo" = [i] := by
  have hrequest : sampleRequest ∈ sampleCurrent.store.requests := by decide +kernel
  have hnone : sampleCurrent.store.impacts = [] := by decide +kernel
  obtain ⟨report, w', he, -⟩ :=
    (analyzeRequest_succeeds sampleSetup intact_sampleCurrent hrequest rfl fun _ _ i hi =>
      absurd (hnone ▸ hi) List.not_mem_nil).exists_ok
  have hcurrent : sampleCurrent.store.IsCurrent sampleRequest.project := Store.isCurrent_withGraph
  have hexact := analyzeRequest_exact intact_sampleCurrent.toConsistent hcurrent hrequest
    (fun i hi => absurd (hnone ▸ hi) List.not_mem_nil) he
  refine ⟨intact_sampleCurrent.toConsistent, hcurrent, hrequest, hnone, report, w', he, hexact,
    ?_⟩
  have hchanges : sampleCurrent.Changes sampleSetup sampleRequest "total" := by
    refine ⟨samplePrice, sampleDraft, ⟨?_, rfl, rfl, ?_, rfl, rfl⟩, ?_⟩ <;> decide +kernel
  have hcart : sampleCart ∈ sampleCurrent.store.files := by decide +kernel
  have hprice : samplePrice ∈ sampleCurrent.store.files := by decide +kernel
  have hcontributor : (⟨"ui", "udo", .contributor⟩ : Contributor) ∈
      sampleCurrent.store.contributors := by
    decide +kernel
  have htold := hexact.complete "ui" (by decide)
    ⟨sampleCart, _, ⟨hcart, rfl, rfl⟩, rfl, _, List.mem_singleton_self _, by decide +kernel,
      samplePrice, _, ⟨hprice, rfl, rfl⟩, rfl, by decide +kernel,
      Or.inr ⟨"total", hchanges, by decide +kernel⟩⟩
  obtain ⟨i, hi, -⟩ := htold.impacts _ hcontributor rfl
  exact ⟨i, hi⟩

end ChangeImpact
