import ChangeImpact.Proofs.Changed
import ChangeImpact.Proofs.Diff.Rebuild
import ChangeImpact.Proofs.Text.Utf8
import ChangeImpact.Proofs.Workflow.Swept

/-!
# Drafts that change nothing

A draft may repeat what is stored of its file. It has no differences and changes no export then.
A request with such drafts alone reaches no component, whatever imports from its own. Its analysis
finds nothing to acknowledge and moves it on to review.
-/

namespace ChangeImpact

open Operation

/-- A draft is what is stored of its file, and the symbols of the file are those that it has. -/
structure Draft.Repeats (setup : Setup) (w : World) (f : ProjectFile) (d : Draft) : Prop where
  content : w.objects.get? f.storageKey = some (Utf8.encode d.content)
  symbols : f.symbols = (parseFile setup.grammar f.path (Utf8.encode d.content)).map (·.parsed)

section Repeats

variable {setup : Setup} {w : World} {f : ProjectFile} {d : Draft}

/-- The committed text is read back as the draft. -/
theorem Draft.Repeats.committedText_eq (h : d.Repeats setup w f) :
    committedText w.objects f = d.content := by
  rw [committedText, h.content, Option.map_some, Option.getD_some, Utf8.decode_encode]

/-- The exports are the same ones. Without a language there are none, neither before nor after. -/
theorem Draft.Repeats.draftedExports_eq (h : d.Repeats setup w f) :
    draftedExports setup.grammar f d.content = [] := by
  rw [draftedExports, h.symbols]
  cases parseFile setup.grammar f.path (Utf8.encode d.content) with
  | none => rfl
  | some e => exact changedExports_self e.parsed

/-- So comparing the draft with its file finds nothing. -/
theorem Draft.Repeats.compareDraft_empty (h : d.Repeats setup w f) :
    (compareDraft setup.grammar w.objects f d).changed = [] ∧
      (compareDraft setup.grammar w.objects f d).difference.isEmpty = true := by
  refine ⟨h.draftedExports_eq, ?_⟩
  show (Diff.compare (committedText w.objects f) d.content).hunks.isEmpty = true
  rw [h.committedText_eq, Diff.hunks_compare_self]
  rfl

end Repeats

/-- Where no draft changes anything, no export is changed and no content differs. -/
theorem Analysis.nothing_changed (drafted : List DraftedFile)
    (h : ∀ x ∈ drafted, x.changed = [] ∧ x.difference.isEmpty = true) :
    Ordered.ofList (drafted.flatMap (·.changed)) = [] ∧
      (drafted.any fun x => !x.difference.isEmpty) = false := by
  constructor
  · rw [List.flatMap_eq_nil_iff.mpr fun x hx => (h x hx).1]
    rfl
  · exact List.any_eq_false.mpr fun x hx => by rw [(h x hx).2]; exact Bool.false_ne_true

/-- An analysis without impacts and reached components moves its request and nothing else. -/
theorem Store.commitAnalysis_nil {s : Store} (h : s.damaged = []) {r : ChangeRequest}
    (hr : r ∈ s.requests) (hs : r.status = .pendingAnalysis) (time : Instant) :
    s.commitAnalysis r.id [] [] time = .ok (true, { s with
      requests := updateWhere (·.id = r.id) (fun q =>
        { q with status := .analysisComplete, updatedAt := time }) s.requests }) := by
  have hids : (([] : List Impact).map (·.id)).Nodup := List.nodup_nil
  obtain ⟨t, ht⟩ := exists_commitAnalysis h hr hs hids (fun _ hi => absurd hi List.not_mem_nil)
    (fun _ hi => absurd hi List.not_mem_nil) [] time
  obtain ⟨u, hu, rfl⟩ := eq_of_commitAnalysis ht
  rw [updateRequest_eq h] at hu
  cases hu
  rw [ht, setComponentStatus_nil]

/-- A request that is stored as analysed and then moves on to review has gone there in all. -/
theorem World.movesOn_of_analysed {w u : World} {r : ChangeRequest} (hr : r ∈ w.store.requests)
    {time : Instant} {events : List Event} (hstore : u.store = { w.store with
      requests := Store.updateWhere (·.id = r.id) (fun q =>
        { q with status := .analysisComplete, updatedAt := time }) w.store.requests })
    (hobjects : u.objects = w.objects) (hevents : u.events = events) :
    World.MovesOn [r.id] { w with events }
      (u.reviewed { r with status := .analysisComplete, updatedAt := time }) := by
  refine ⟨?_, by rw [reviewed, hstore], hobjects, [⟨r.author, .pendingReview, r.id⟩],
    by rw [reviewed, hevents], .cons ⟨r, hr, rfl, rfl⟩ .nil⟩
  rw [reviewed, hstore, Store.updateWhere, Store.updateWhere, List.map_map,
    List.forall₂_map_right_iff, List.forall₂_same]
  intro q _
  by_cases hid : q.id = r.id
  · exact Or.inl ⟨hid ▸ List.mem_singleton_self _, u.clock, by simp [hid]⟩
  · exact Or.inr ⟨fun hin => hid (List.mem_singleton.mp hin), by simp [hid]⟩

/-- What an analysis that finds nothing answers and does: its request moves on to review, which
its author is told, and nobody and nothing else is concerned. -/
structure Unaffecting (r : ChangeRequest) (report : ImpactReport) (w v : World) : Prop where
  status : report.status = .pendingReview
  changedSymbols : report.changedSymbols = []
  affectedComponents : report.affectedComponents = []
  impacts : report.impacts = 0
  /-- The request has no impacts, and no component is flagged. -/
  noImpacts : ∀ i ∈ v.store.impacts, i.change ≠ r.id
  components : v.store.components = w.store.components
  moves : World.MovesOn [r.id]
    { w with events := w.events ++ [⟨r.author, .parserComplete, r.id⟩] } v

section Analysis

variable {setup : Setup} {w : World} {r : ChangeRequest}

/-- A pending request of a reachable world whose drafts all repeat their files is analysed and
moves on to review without any impact. -/
theorem analyzeRequest_unaffecting (h : Reachable setup w) (hr : r ∈ w.store.requests)
    (hs : r.status = .pendingAnalysis)
    (hdrafts : ∀ f d, w.store.Drafted r f d → d.Repeats setup w f) :
    ∃ report v, exec (analyzeRequest setup r.id) w = (.ok report, v) ∧
      Unaffecting r report w v := by
  have hw := h.intact
  have hnone := change_ne_of_pending h.allAgree hr hs
  have hends : Succeeds (analyzeRequest setup r.id) w fun report v => Unaffecting r report w v := by
    refine Yields.need_ok (hw.request?_eq hr) ?_
    refine Yields.require (fun hf => absurd hs (of_decide_eq_false hf)) fun _ => ?_
    refine Yields.query ?_
    refine Yields.bind (compareDrafts_yields (fun hd => hd hw.readable) _ _) ?_
    rintro drafted w ⟨hdrafted, rfl⟩
    obtain ⟨hchanged, hdiffers⟩ := Analysis.nothing_changed drafted fun x hx => by
      rw [hdrafted] at hx
      obtain ⟨f, d, hd, rfl⟩ := (Analysis.mem_compared hw.toConsistent).mp hx
      exact (hdrafts f d hd).compareDraft_empty
    rw [hchanged, hdiffers]
    refine Yields.read_ok (x := Store.byPath (w.store.files.filter (·.project = r.project)))
      (Store.readRows_of_readable hw.readable _) ?_
    refine Yields.query (Yields.query (Yields.now ?_))
    refine Yields.bind (P := fun is v => is = [] ∧ v = { w with clock := _ }) ⟨rfl, rfl⟩ ?_
    rintro _ _ ⟨rfl, rfl⟩
    have hcommit := Store.commitAnalysis_nil hw.readable hr hs ⟨w.clock.nanos + tick⟩
    refine Yields.now (Yields.writeWith_ok hcommit ?_)
    refine Yields.bind (P := fun _ v => v = { w with store := _, clock := _ }) rfl ?_
    rintro _ _ rfl
    refine Yields.publish (Yields.bind (reEvaluate_of_awaitsReview (hw.commitAnalysis hcommit)
      (r := { r with status := .analysisComplete, updatedAt := ⟨w.clock.nanos + tick⟩ })
      (Store.mem_updateWhere.mpr ⟨r, hr, if_pos (decide_eq_true rfl)⟩)
      ⟨rfl, fun i hi hchange => absurd hchange (hnone i hi)⟩) ?_)
    rintro _ _ ⟨rfl, rfl⟩
    refine ⟨rfl, rfl, rfl, rfl, hnone, rfl, World.movesOn_of_analysed hr ?_ ?_ ?_⟩ <;> rfl
  obtain ⟨report, v, he, hv⟩ := hends.exists_ok
  exact ⟨report, v, he, hv⟩

end Analysis

/-! ## A draft saved as it was -/

/-- A content with the line ends of two systems and without a last one. -/
def sampleText : String := "export const total = 1\r\nexport const rate = 2\n\nexport {}"

/-- The drafted file of the small project, stored with this content. -/
def sampleStored : ProjectFile :=
  { samplePrice with
    path := "core/price.ts"
    symbols := (parseFile sampleSetup.grammar "core/price.ts" (Utf8.encode sampleText)).map
      (·.parsed) }

/-- A draft of the file that is saved as it was opened. -/
def sampleCopy : Draft := { sampleDraft with content := sampleText }

/-- A file of another component that imports everything from it. -/
def sampleWildcard : ProjectFile :=
  { sampleCart with
    symbols := some
      { path := "ui/cart"
        language := "text"
        imports := [{ source := "../core/price", isWildcard := true, line := 1 }] } }

/-- The small project with this draft and the submitted request. -/
def sampleRepeating : World := run sampleSetup { clock := ⟨0⟩ }
  [.enter (.project { id := "shop", name := "Shop", owner := "olga", strictness := .soft }),
    .enter (.component { id := "core", project := "shop", name := "Core" }),
    .enter (.component { id := "ui", project := "shop", name := "UI" }),
    .enter (.contributor { component := "ui", user := "udo" }),
    .objects (·.put sampleStored.storageKey (Utf8.encode sampleText)),
    .enter (.file sampleStored), .enter (.file sampleWildcard),
    .enter (.edge "shop" { source := "ui", target := "core" }),
    .enter (.draft sampleCopy), .create "shop" "core" "ana" "Prices" "" true]

/-- The draft was saved as it was: the request to commit it moves on to review, and the
contributor of the component with the wildcard import is not concerned. -/
theorem sample_unaffecting :
    Reachable sampleSetup sampleRepeating ∧ sampleRequest ∈ sampleRepeating.store.requests ∧
    (∃ f d, sampleRepeating.store.Drafted sampleRequest f d) ∧
    (∀ f d, sampleRepeating.store.Drafted sampleRequest f d →
      d.Repeats sampleSetup sampleRepeating f) ∧
    ∃ report v,
      exec (analyzeRequest sampleSetup sampleRequest.id) sampleRepeating = (.ok report, v) ∧
      report.affectedComponents = [] ∧ (∀ i ∈ v.store.impacts, i.change ≠ sampleRequest.id) ∧
      v.store.components = sampleRepeating.store.components := by
  have hreach : Reachable sampleSetup sampleRepeating := (Reachable.start rfl rfl).run _
  have hrequest : sampleRequest ∈ sampleRepeating.store.requests := by decide +kernel
  have hfiles : sampleRepeating.store.files = [sampleStored, sampleWildcard] := rfl
  have hdrafts : sampleRepeating.store.drafts = [sampleCopy] := rfl
  have hrepeats (f : ProjectFile) (d : Draft)
      (hd : sampleRepeating.store.Drafted sampleRequest f d) :
      d.Repeats sampleSetup sampleRepeating f := by
    obtain rfl := List.mem_singleton.mp (hdrafts ▸ hd.draft)
    obtain rfl : f = sampleStored := by
      rcases List.mem_pair.mp (hfiles ▸ hd.file) with rfl | rfl
      · rfl
      · exact absurd hd.component (by decide)
    exact ⟨rfl, rfl⟩
  refine ⟨hreach, hrequest, ⟨sampleStored, sampleCopy, ?_⟩, hrepeats, ?_⟩
  · exact ⟨hdrafts ▸ List.mem_singleton_self _, rfl, rfl, hfiles ▸ List.mem_cons_self .., rfl, rfl⟩
  · obtain ⟨report, v, he, hv⟩ := analyzeRequest_unaffecting hreach hrequest rfl hrepeats
    exact ⟨report, v, he, hv.affectedComponents, hv.noImpacts, hv.components⟩

end ChangeImpact
