import ChangeImpact.Proofs.Graph.Current
import ChangeImpact.Proofs.Graph.Locality
import ChangeImpact.Proofs.Store.Edges
import ChangeImpact.Proofs.Workflow.Approval

/-!
# The graph around an approved component

An approval gives new symbols to files of one component and rebuilds the graph of the whole
project. Where the promoted files had symbols before, no path becomes known or unknown, so what
was current about other components stays: the edges between two of them and the imports that
lead out of their files.
-/

namespace ChangeImpact

open Operation

/-- Whether an import that leads out is recorded for a file of a component. -/
def Store.leadsFrom (s : Store) (component : String) (row : StoredExternal) : Bool :=
  s.files.any fun f =>
    f.project = row.project && f.path = row.dependency.filePath && f.component = some component

/-- What a change of one component leaves of the graph of a project. -/
structure World.ChangesOnly (project component : String) (w v : World) : Prop where
  /-- The edges between two other components are the same, with the same symbols. -/
  edges : ∀ row : StoredEdge, row.edge.source ≠ component → row.edge.target ≠ component →
    (row ∈ v.store.edges ↔ row ∈ w.store.edges)
  /-- The edges that a language model found are the same. -/
  assisted : v.store.edges.filter (·.edge.method = .llm) =
    w.store.edges.filter (·.edge.method = .llm)
  /-- What leads out of files of other components is the same, if what is recorded was what the
  files of the project say. -/
  external : (w.store.leadingOut project).Perm
      (DependencyGraph.build (w.store.indexed project)).external →
    (v.store.external.filter (!v.store.leadsFrom component ·)).Perm
      (w.store.external.filter (!w.store.leadsFrom component ·))

section Promoted

variable {setup : Setup} {r : ChangeRequest} {pairs : List (ProjectFile × Draft)} {w u : World}
  {f : ProjectFile}

/-- A file without promoted drafts, such as one of another component, stays as it is. -/
theorem Promotes.promotedFile_eq (h : Promotes setup r pairs w u) (hw : w.store.Consistent)
    (hf : f ∈ w.store.files) (hnone : ∀ d, ¬w.store.Drafted r f d) :
    promotedFile setup.grammar r.project pairs f = f := by
  refine promotedFile_of_ne fun x hx hid => hnone x.2 ?_
  rw [← hw.fileIds.eq_of_key_eq (h.files x hx).1 hf hid]
  exact (h.mem_pairs_iff hw).mp hx

/-- When all promoted files had symbols, a file has symbols after the approval if it had some
before. -/
theorem Promotes.isSome_symbols (h : Promotes setup r pairs w u) (hw : w.store.Consistent)
    (hsymbols : ∀ f d, w.store.Drafted r f d → f.symbols.isSome = true) (hf : f ∈ w.store.files) :
    (promotedFile setup.grammar r.project pairs f).symbols.isSome = f.symbols.isSome := by
  by_cases hdrafted : ∃ d, w.store.Drafted r f d
  · obtain ⟨d, hd⟩ := hdrafted
    rw [hsymbols f d hd]
    exact ProjectFile.isSome_symbols_foldl_promote (hsymbols f d hd)
  · rw [h.promotedFile_eq hw hf fun d hd => hdrafted ⟨d, hd⟩]

/-- The indexed files after the approval differ from those before in one component. -/
theorem Promotes.agreeOutside (h : Promotes setup r pairs w u) (hw : w.store.Consistent)
    (hu : u.store.Consistent)
    (hsymbols : ∀ f d, w.store.Drafted r f d → f.symbols.isSome = true) :
    IndexedFile.AgreeOutside r.component (w.store.indexed r.project)
      (u.store.indexed r.project) := by
  have hindexed {s : Store} {path : String} :
      path ∈ (s.indexed r.project).map (·.path) ↔ path ∈ s.snapshottedPaths r.project := by
    rw [← Store.mem_paths_indexed, ExportIndex.mem_paths_build, List.mem_map]
  constructor
  case distinct => exact Store.nodup_paths_indexed hw r.project
  case distinct' => exact Store.nodup_paths_indexed hu r.project
  case paths =>
    intro path
    rw [hindexed, hindexed, Store.snapshottedPaths, Store.snapshottedPaths, h.files_eq,
      List.filter_map, List.map_map]
    have hsame : w.store.files.filter (fun f => f.project = r.project ∧ f.symbols.isSome) =
        w.store.files.filter ((fun f => decide (f.project = r.project ∧ f.symbols.isSome)) ∘
          promotedFile setup.grammar r.project pairs) := by
      refine List.filter_congr fun f hf => ?_
      rw [Function.comp_apply, project_promotedFile, h.isSome_symbols hw hsymbols hf]
    rw [← hsame]
    exact Eq.to_iff (congrArg (path ∈ ·) (List.map_congr_left fun f _ => path_promotedFile.symm))
  case files =>
    intro g hg
    have hstays {f : ProjectFile} (hf : f ∈ w.store.files) (hc : f.component = g.component) :
        promotedFile setup.grammar r.project pairs f = f :=
      h.promotedFile_eq hw hf fun d hd => hg (hc ▸ hd.component)
    rw [Store.mem_indexed, Store.mem_indexed, h.files_eq]
    have hcomponent {f : ProjectFile} (hi : indexed? f = some g) : f.component = g.component := by
      obtain ⟨symbols, -, rfl⟩ := Option.map_eq_some_iff.mp hi
      rfl
    constructor
    · rintro ⟨f, hf, hp, hi⟩
      exact ⟨f, List.mem_map.mpr ⟨f, hf, hstays hf (hcomponent hi)⟩, hp, hi⟩
    · rintro ⟨f', hf', hp, hi⟩
      obtain ⟨f, hf, rfl⟩ := List.mem_map.mp hf'
      have hc := hcomponent hi
      rw [component_promotedFile] at hc
      rw [hstays hf hc] at hp hi
      exact ⟨f, hf, hp, hi⟩

end Promoted

section Rebuilt

variable {s u : Store} {project component : String} {g : DependencyGraph}

theorem Store.leadsFrom_congr (h : u.files.map (fun f => (f.project, f.path, f.component)) =
    s.files.map fun f => (f.project, f.path, f.component)) (component : String) :
    u.leadsFrom component = s.leadsFrom component := by
  funext row
  have hany (t : Store) : t.leadsFrom component row =
      (t.files.map fun f => (f.project, f.path, f.component)).any fun x =>
        x.1 = row.project && x.2.1 = row.dependency.filePath && x.2.2 = some component := by
    rw [leadsFrom, List.any_map]
    rfl
  rw [hany, hany, h]

/-- What leads out of an indexed file is told from its path. -/
theorem Store.leadsFrom_iff (h : s.Consistent) {f : IndexedFile} (hf : f ∈ s.indexed project)
    {d : ExternalDependency} (hd : d.filePath = f.path) :
    s.leadsFrom component ⟨project, d⟩ = true ↔ f.component = some component := by
  obtain ⟨file, hfile, rfl, hi⟩ := mem_indexed.mp hf
  obtain ⟨symbols, -, rfl⟩ := Option.map_eq_some_iff.mp hi
  simp only [leadsFrom, List.any_eq_true, Bool.and_eq_true, decide_eq_true_eq]
  constructor
  · rintro ⟨x, hx, ⟨hp, hpath⟩, hc⟩
    have hplace : (x.project, x.path) = (file.project, file.path) := by
      rw [hp, hpath, hd]
      rfl
    rw [← h.filePlaces.eq_of_key_eq hx hfile hplace]
    exact hc
  · intro hc
    exact ⟨file, hfile, ⟨rfl, hd.symm⟩, hc⟩

/-- The edges that the parser did not find in a project stay when its graph is replaced. -/
theorem Store.mem_edges_withGraph_of_not {row : StoredEdge} (hrow : isParsed project row = false) :
    row ∈ (u.withGraph project g).edges ↔ row ∈ u.edges := by
  have hkept (edges : List StoredEdge) :
      row ∈ edges ↔ row ∈ edges.filter (!isParsed project ·) := by
    rw [List.mem_filter, hrow]
    exact (and_iff_left rfl).symm
  rw [hkept, hkept u.edges, filter_not_isParsed_withGraph]

theorem Store.assisted_withGraph :
    (u.withGraph project g).edges.filter (·.edge.method = .llm) =
      u.edges.filter (·.edge.method = .llm) := by
  have hkept (row : StoredEdge) : decide (row.edge.method = .llm) =
      (decide (row.edge.method = .llm) && !isParsed project row) := by
    cases hm : row.edge.method <;> simp [isParsed, hm]
  rw [funext hkept, ← List.filter_filter, ← List.filter_filter, filter_not_isParsed_withGraph]

/-- The imports that lead out, those of one project last. -/
theorem Store.perm_external (s : Store) (project : String) :
    s.external.Perm (s.external.filter (·.project ≠ project) ++
      (s.leadingOut project).map fun d => ⟨project, d⟩) := by
  have hown : (s.leadingOut project).map (fun d => (⟨project, d⟩ : StoredExternal)) =
      s.external.filter (·.project = project) := by
    rw [leadingOut, List.map_map]
    refine (List.map_congr_left fun row hrow => ?_).trans (List.map_id _)
    rw [← of_decide_eq_true (List.mem_filter.mp hrow).2]
    rfl
  have hsplit := List.filter_append_perm (fun row : StoredExternal => decide (row.project = project))
    s.external
  rw [hown]
  simp only [ne_eq, decide_not]
  exact (List.perm_append_comm.trans hsplit).symm

/-- Storing a graph that agrees with a current one outside a component changes only what that
component is part of. -/
theorem World.ChangesOnly.of_withGraph {w v : World} (hw : w.store.Consistent)
    (hu : u.Consistent) (hcurrent : w.store.IsCurrent project)
    (hagree : IndexedFile.AgreeOutside component (w.store.indexed project) (u.indexed project))
    (hfiles : u.files.map (fun f => (f.project, f.path, f.component)) =
      w.store.files.map fun f => (f.project, f.path, f.component))
    (hedges : u.edges = w.store.edges) (hexternal : u.external = w.store.external)
    (hv : v.store = u.withGraph project (DependencyGraph.build (u.indexed project))) :
    w.ChangesOnly project component v := by
  constructor
  case edges =>
    intro row hsource htarget
    cases hrow : Store.isParsed project row with
    | false => rw [hv, Store.mem_edges_withGraph_of_not hrow, hedges]
    | true =>
      obtain ⟨rfl, hmethod⟩ := Store.isFound_iff.mp hrow
      have hstored : (u.withGraph row.project
          (DependencyGraph.build (u.indexed row.project))).IsCurrent row.project :=
        Store.isCurrent_withGraph
      have hnew := hstored row.edge
      have hold := hcurrent row.edge
      rw [and_iff_left hmethod] at hnew hold
      rw [hv]
      exact hnew.trans ⟨fun he => hold.mpr (hagree.symm.mem_edges hsource htarget he),
        fun he => hagree.mem_edges hsource htarget (hold.mp he)⟩
  case assisted =>
    rw [hv, Store.assisted_withGraph, hedges]
  case external =>
    intro hlisted
    have hplaces : v.store.leadsFrom component = w.store.leadsFrom component := by
      rw [hv]
      exact Store.leadsFrom_congr hfiles component
    have hown {f : IndexedFile} (hf : f ∈ w.store.indexed project ∨ f ∈ u.indexed project)
        (d : ExternalDependency) (hd : d.filePath = f.path) :
        (!w.store.leadsFrom component ⟨project, d⟩) = true ↔ f.component ≠ some component := by
      rw [Bool.not_eq_true', ← Bool.not_eq_true]
      refine not_congr ?_
      rcases hf with hf | hf
      · exact Store.leadsFrom_iff hw hf hd
      · rw [← Store.leadsFrom_congr hfiles]
        exact Store.leadsFrom_iff hu hf hd
    have hsame := hagree.external_eq (p := fun d => !w.store.leadsFrom component ⟨project, d⟩)
      fun f hf d hd => hown hf d hd
    have hlast {ds ds' : List ExternalDependency}
        (h : (ds.filter fun d => !w.store.leadsFrom component ⟨project, d⟩).Perm
          (ds'.filter fun d => !w.store.leadsFrom component ⟨project, d⟩)) :
        ((ds.map (StoredExternal.mk project)).filter (!w.store.leadsFrom component ·)).Perm
          ((ds'.map (StoredExternal.mk project)).filter (!w.store.leadsFrom component ·)) := by
      rw [List.filter_map, List.filter_map]
      exact h.map _
    have hnew : v.store.external = w.store.external.filter (·.project ≠ project) ++
        (DependencyGraph.build (u.indexed project)).external.map (StoredExternal.mk project) := by
      rw [hv, ← hexternal]
      rfl
    rw [hplaces, hnew]
    refine List.Perm.trans ?_ ((w.store.perm_external project).symm.filter _)
    rw [List.filter_append, List.filter_append]
    refine List.Perm.append_left _ (hlast ?_)
    rw [← hsame]
    exact (hlisted.filter _).symm

end Rebuilt

/-- When the edges of a project are those of the symbols of its files, and all files that an
approval promotes have symbols, the approval changes the graph of the project only around the
component of the request. -/
theorem approval_changesOnly {setup : Setup} {r : ChangeRequest} {user : String} {w v : World}
    {outcome : ApprovalOutcome} (hw : w.store.Consistent) (hr : r ∈ w.store.requests)
    (hcurrent : w.store.IsCurrent r.project)
    (hsymbols : ∀ f d, w.store.Drafted r f d → f.symbols.isSome = true)
    (he : exec (approveAndRebuild setup r.id user) w = (.ok outcome, v)) :
    w.ChangesOnly r.project r.component v := by
  obtain ⟨pairs, u, h, -, -, hv⟩ := (approveAndRebuild_promotes hw hr).of_ok he
  obtain ⟨commit, snapshot, -, hcommit⟩ := h.committed
  obtain ⟨hedges, hexternal⟩ := Store.graph_commitApproval hcommit
  have hu : u.store.Consistent := hw.commitApproval hcommit
  refine .of_withGraph hw hu hcurrent (h.agreeOutside hw hu hsymbols) ?_ hedges hexternal hv
  rw [h.files_eq, List.map_map]
  refine List.map_congr_left fun f _ => ?_
  rw [Function.comp_apply, project_promotedFile, path_promotedFile, component_promotedFile]

/-! ## A cart beside the core -/

/-- The cart, with given imports. -/
def sampleCartFile (imports : List Import) : ProjectFile where
  id := "f2"
  project := "shop"
  component := some "cart"
  path := "cart/main"
  storageKey := fileKey "shop" "cart/main"
  symbols := some { path := "cart/main", language := "text", imports }

/-- A file of the user interface that exports a name. -/
def sampleView : ProjectFile where
  id := "f3"
  project := "shop"
  component := some "ui"
  path := "ui/view"
  storageKey := fileKey "shop" "ui/view"
  symbols := some
    { path := "ui/view"
      language := "text"
      exports := [{ name := "show", kind := .function }] }

/-- A file of the core with a draft and a request that waits for the owner, and files of two other
components. A language model found an edge. -/
def sampleBeside (imports : List Import) : World := run sampleSetup { clock := ⟨0⟩ }
  [.enter (.project sampleShop),
    .enter (.component { id := "core", project := "shop", name := "Core" }),
    .enter (.component { id := "cart", project := "shop", name := "Cart" }),
    .enter (.component { id := "ui", project := "shop", name := "UI" }),
    .enter (.file samplePrice),
    .enter (.draft sampleDraft),
    .create "shop" "core" "ana" "Prices" "" true,
    .analyze sampleRequest.id,
    .enter (.file (sampleCartFile imports)),
    .enter (.file sampleView),
    .enter (.edge "shop" { source := "ui", target := "core", method := .llm, confidence := 0.5 })]

theorem reachable_sampleBeside (imports : List Import) :
    Reachable sampleSetup (sampleBeside imports) :=
  (Reachable.start rfl rfl).run _

/-- An import from a library. -/
def sampleLibrary : Import := { source := "big", symbols := ["Decimal"], line := 3 }

/-- The cart imports from both other components and from a library. -/
def sampleBetween : World := sampleBeside
  [{ source := "../core/price", symbols := ["total"], line := 1 },
    { source := "../ui/view", symbols := ["show"], line := 2 }, sampleLibrary]

theorem intact_sampleBetween : sampleBetween.store.Intact := (reachable_sampleBeside _).intact

/-- The same when the graph is stored. -/
def sampleCharted : World :=
  { sampleBetween with
    store := sampleBetween.store.withGraph "shop"
      (DependencyGraph.build (sampleBetween.store.indexed "shop")) }

theorem intact_sampleCharted : sampleCharted.store.Intact where
  toConsistent := intact_sampleBetween.toConsistent.rebuilt (by decide +kernel)
  readable := intact_sampleBetween.readable

theorem sample_changesOnly :
    sampleCharted.store.Consistent ∧ sampleReviewed ∈ sampleCharted.store.requests ∧
    sampleCharted.store.IsCurrent "shop" ∧
    (∀ f d, sampleCharted.store.Drafted sampleReviewed f d → f.symbols.isSome = true) ∧
    (sampleCharted.store.edges.map fun row => (row.edge.ends, row.edge.symbols)) =
      [(⟨"ui", "core"⟩, []), (⟨"cart", "core"⟩, ["total"]), (⟨"cart", "ui"⟩, ["show"])] ∧
    (sampleCharted.store.leadingOut "shop").Perm
      (DependencyGraph.build (sampleCharted.store.indexed "shop")).external ∧
    ∃ outcome v, exec (approveAndRebuild sampleSetup sampleReviewed.id "olga") sampleCharted =
        (.ok outcome, v) ∧ sampleCharted.ChangesOnly "shop" "core" v := by
  have hrequest : sampleReviewed ∈ sampleCharted.store.requests := by decide +kernel
  have hcurrent : sampleCharted.store.IsCurrent "shop" := Store.isCurrent_withGraph
  have hfiles : ∀ f ∈ sampleCharted.store.files, f.symbols.isSome = true := by decide +kernel
  have hsymbols : ∀ f d, sampleCharted.store.Drafted sampleReviewed f d →
      f.symbols.isSome = true := fun f _ hd => hfiles f hd.file
  obtain ⟨outcome, happroved⟩ := exec_eq_ok_of_isSome (w := sampleCharted)
    (a := approveRequest sampleSetup sampleReviewed.id "olga") (by decide +kernel)
  have he := approveAndRebuild_of_approved intact_sampleCharted hrequest happroved
  refine ⟨intact_sampleCharted.toConsistent, hrequest, hcurrent, hsymbols, ?_,
    List.Perm.of_eq (Store.leadingOut_withGraph _ _ _), outcome, _, he,
    approval_changesOnly intact_sampleCharted.toConsistent hrequest hcurrent hsymbols he⟩
  rw [sampleCharted, Store.build_indexed intact_sampleBetween.toConsistent]
  decide +kernel

/-- An import from another library, which the cart no longer has. -/
def sampleFormer : StoredExternal := ⟨"shop", { filePath := "cart/main", source := "old", line := 3 }⟩

/-- A cart that imports from a library, where the import that it had before is recorded. -/
def sampleOutdated : World :=
  { sampleBeside [sampleLibrary] with
    store := (sampleBeside [sampleLibrary]).store.withGraph "shop" ⟨[], [sampleFormer.dependency]⟩ }

theorem intact_sampleOutdated : sampleOutdated.store.Intact := by
  have hs : (sampleBeside [sampleLibrary]).store.Intact := (reachable_sampleBeside _).intact
  have ht : (sampleBeside [sampleLibrary]).store.replaceGraph "shop"
      ⟨[], [sampleFormer.dependency]⟩ = .ok sampleOutdated.store := by
    rw [sampleOutdated, Store.withGraph, List.map_nil, List.append_nil]
    have hproject : ((sampleBeside [sampleLibrary]).store.clearGraph "shop").hasProject "shop" =
        true := by decide +kernel
    exact Store.foldlM_insertExternal hproject
  exact hs.replaceGraph ht

/-- The edges can be current while the imports that lead out are not. Approving a change of one
component then takes away what is recorded for a file of another one. -/
theorem sample_change_reaches_out :
    sampleOutdated.store.Intact ∧ sampleReviewed ∈ sampleOutdated.store.requests ∧
    sampleOutdated.store.IsCurrent "shop" ∧
    (∀ f d, sampleOutdated.store.Drafted sampleReviewed f d → f.symbols.isSome = true) ∧
    ∃ outcome v, exec (approveAndRebuild sampleSetup sampleReviewed.id "olga") sampleOutdated =
        (.ok outcome, v) ∧
      sampleFormer ∈ sampleOutdated.store.external ∧
      sampleOutdated.store.leadsFrom "core" sampleFormer = false ∧
      sampleFormer ∉ v.store.external := by
  have hintact := intact_sampleOutdated
  have hrequest : sampleReviewed ∈ sampleOutdated.store.requests := by decide +kernel
  have hfiles : ∀ f ∈ sampleOutdated.store.files, f.symbols.isSome = true := by decide +kernel
  have hcurrent : sampleOutdated.store.IsCurrent "shop" := by
    have hedges : ∀ row ∈ sampleOutdated.store.edges, row.edge.method ≠ .parser := by
      decide +kernel
    have hbuild : (DependencyGraph.build (sampleOutdated.store.indexed "shop")).edges = [] := by
      rw [Store.build_indexed hintact.toConsistent]
      decide +kernel
    intro e
    rw [hbuild]
    exact ⟨fun he => absurd he.2 (hedges _ he.1), fun he => absurd he List.not_mem_nil⟩
  obtain ⟨outcome, happroved⟩ := exec_eq_ok_of_isSome (w := sampleOutdated)
    (a := approveRequest sampleSetup sampleReviewed.id "olga") (by decide +kernel)
  have he := approveAndRebuild_of_approved hintact hrequest happroved
  have hafter : (step sampleSetup sampleOutdated
      (.approve sampleReviewed.id "olga")).store.Intact := (grows_step _ _ _).intact hintact
  rw [step_eq_of_exec (a := .approve sampleReviewed.id "olga") happroved] at hafter
  refine ⟨hintact, hrequest, hcurrent, fun f _ hd => hfiles f hd.file, outcome, _, he,
    by decide +kernel, by decide +kernel, ?_⟩
  rw [Store.build_indexed hafter.toConsistent]
  decide +kernel

end ChangeImpact
