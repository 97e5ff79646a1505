import ChangeImpact.Proofs.Store.Content
import ChangeImpact.Proofs.Workflow.Promotion

/-!
# What indexing settles

Indexing a project goes through whatever is in its tables, as long as they can be read.
Afterwards the symbols of its files are those of their content, the graph of the parser
is that of the symbols, and nothing else is different. A file that has the symbols it gets
gets the same again, so indexing once more changes nothing and says the same.
-/

namespace ChangeImpact

open Operation

/-! ## The symbols of one file -/

section File

variable {grammar : Grammar} {o : Objects} {f : ProjectFile} {content : Bytes}

theorem reparsed_of_missing (h : o.get? f.storageKey = none) : reparsed grammar o f = none := by
  rw [reparsed, h]

theorem reparsed_of_detect {language : Language} (h : o.get? f.storageKey = some content)
    (hl : Language.detect f.path = some language) :
    reparsed grammar o f = some (parseAs grammar language f.path content).parsed := by
  rw [reparsed, h]
  dsimp only
  rw [parseFile, hl]
  rfl

theorem reparsed_of_unsupported (h : o.get? f.storageKey = some content)
    (hl : Language.detect f.path = none) : reparsed grammar o f = f.symbols := by
  rw [reparsed, h]
  dsimp only
  rw [parseFile, hl]
  rfl

/-- The file with the symbols that indexing gives it. -/
def ProjectFile.reparse (grammar : Grammar) (o : Objects) (f : ProjectFile) : ProjectFile :=
  { f with symbols := reparsed grammar o f }

/-- The symbols that a file gets do not change when it has them. -/
theorem reparsed_reparse : reparsed grammar o (f.reparse grammar o) = reparsed grammar o f := by
  cases h : o.get? f.storageKey with
  | none =>
    have hnone : reparsed grammar o (f.reparse grammar o) = none := reparsed_of_missing h
    rw [hnone, reparsed_of_missing h]
  | some content =>
    cases hl : Language.detect f.path with
    | none => exact reparsed_of_unsupported h hl
    | some language =>
      have hsome : reparsed grammar o (f.reparse grammar o) =
          some (parseAs grammar language f.path content).parsed := reparsed_of_detect h hl
      rw [hsome, reparsed_of_detect h hl]

end File

/-! ## The listed files -/

section Listed

variable {grammar : Grammar} {o : Objects} {files : List ProjectFile} {g : ProjectFile → ProjectFile}

/-- Changes that keep paths keep the order of the files. -/
theorem Store.byPath_map (hpath : ∀ f, (g f).path = f.path) :
    byPath (files.map g) = (byPath files).map g :=
  Ordered.sortBy_map (fun a b => by rw [hpath, hpath]) files

/-- Which content is there depends on the paths and keys of the files alone. -/
theorem fetchAll_map (hpath : ∀ f, (g f).path = f.path)
    (hkey : ∀ f, (g f).storageKey = f.storageKey) : fetchAll o (files.map g) = fetchAll o files := by
  simp only [fetchAll, List.filterMap_map, Function.comp_def, hpath, hkey]

/-- How many files are parsed does too. -/
theorem length_parsedFiles_map (hpath : ∀ f, (g f).path = f.path)
    (hkey : ∀ f, (g f).storageKey = f.storageKey) :
    (parsedFiles grammar o (files.map g)).length = (parsedFiles grammar o files).length := by
  have hmap : parsedFiles grammar o (files.map g) =
      (parsedFiles grammar o files).map fun x => (g x.1, x.2) := by
    rw [parsedFiles, parsedFiles, List.filterMap_map, List.map_filterMap]
    refine List.filterMap_congr fun f _ => ?_
    rw [Function.comp_apply, hpath, hkey]
    cases o.get? f.storageKey with
    | none => rfl
    | some content =>
      rw [Option.bind_some, Option.bind_some, Option.map_map]
      rfl
  rw [hmap, List.length_map]

end Listed

/-! ## The tables -/

namespace Store

variable {s : Store} {grammar : Grammar} {o : Objects} {project : String}

theorem reparse_reparse :
    (s.reparse grammar o project).reparse grammar o project = s.reparse grammar o project := by
  refine reparse_eq_self (reparse_eq_self_iff.mpr fun f hf hp => ?_)
  obtain ⟨g, -, rfl⟩ := mem_updateWhere.mp hf
  split at hp
  · rw [if_pos ‹_›]
    exact reparsed_reparse
  · exact absurd (decide_eq_true hp) ‹_›

/-- Indexing a project that was just indexed changes nothing. -/
theorem index_index :
    (s.index grammar o project).index grammar o project = s.index grammar o project := by
  let parsed := s.reparse grammar o project
  let graph := DependencyGraph.build (parsed.indexed project)
  have hparsed : (s.index grammar o project).reparse grammar o project =
      s.index grammar o project :=
    congrArg (withGraph project graph) reparse_reparse
  calc (s.index grammar o project).index grammar o project
      = (parsed.withGraph project graph).withGraph project graph := by
        rw [index, hparsed]
        rfl
    _ = s.index grammar o project := withGraph_withGraph graph

/-- Indexing a project that was just indexed says the same again. -/
theorem indexReport_index :
    (s.index grammar o project).indexReport grammar o project =
      s.indexReport grammar o project := by
  have hlisted : byPath ((s.index grammar o project).files.filter (·.project = project)) =
      (byPath (s.files.filter (·.project = project))).map (·.reparse grammar o) := by
    rw [← byPath_map (g := (·.reparse grammar o)) fun _ => rfl]
    exact congrArg byPath (filter_updateWhere (p := fun f : ProjectFile => f.project = project)
      (f := (·.reparse grammar o)) (fun _ => rfl) s.files)
  have hindexed : ((s.index grammar o project).reparse grammar o project).indexed project =
      (s.reparse grammar o project).indexed project :=
    congrArg (fun t => t.indexed project) reparse_reparse
  rw [indexReport, indexReport, hlisted, hindexed,
    fetchAll_map (g := (·.reparse grammar o)) (fun _ => rfl) fun _ => rfl,
    length_parsedFiles_map (g := (·.reparse grammar o)) (fun _ => rfl) fun _ => rfl]

theorem Consistent.index (h : s.Consistent) (hp : s.hasProject project = true) :
    (s.index grammar o project).Consistent :=
  (h.reparse grammar o project).rebuilt hp

end Store

/-! ## The world after indexing -/

/-- What indexing a project leaves. -/
structure World.Reindexed (setup : Setup) (project : String) (w v : World) : Prop where
  /-- A file with content and a language has the symbols of the content. -/
  parsed : ∀ f ∈ v.store.files, f.project = project → ∀ content language,
    v.objects.get? f.storageKey = some content → Language.detect f.path = some language →
      f.symbols = some (parseAs setup.grammar language f.path content).parsed
  /-- A file without content has no symbols. -/
  missing : ∀ f ∈ v.store.files, f.project = project →
    v.objects.get? f.storageKey = none → f.symbols = none
  /-- A file with content but no language is still the same. -/
  unsupported : ∀ f ∈ w.store.files, f.project = project →
    (w.objects.get? f.storageKey).isSome = true → Language.detect f.path = none →
      f ∈ v.store.files
  /-- No file is added, removed or given anything but symbols. -/
  files : v.store.files.map (·.unparsed) = w.store.files.map (·.unparsed)
  /-- The files of other projects are the same. -/
  otherFiles : v.store.files.filter (·.project ≠ project) =
    w.store.files.filter (·.project ≠ project)
  /-- What the parser found is the graph of the symbols. -/
  edges : (v.store.edges.filter (Store.isParsed project)).map (·.edge) =
    (DependencyGraph.build (v.store.indexed project)).edges
  /-- All other edges, of this project and of others, are the same. -/
  otherEdges : v.store.edges.filter (!Store.isParsed project ·) =
    w.store.edges.filter (!Store.isParsed project ·)
  external : (v.store.external.filter (·.project = project)).map (·.dependency) =
    (DependencyGraph.build (v.store.indexed project)).external
  otherExternal : v.store.external.filter (·.project ≠ project) =
    w.store.external.filter (·.project ≠ project)
  /-- All other tables are the same. -/
  tables : v.store =
    { w.store with files := v.store.files, edges := v.store.edges, external := v.store.external }
  objects : v.objects = w.objects

section Indexed

variable {setup : Setup} {project : String} {w v : World}

/-- A file of the project after indexing is one from before, parsed again. -/
private theorem exists_reparse {f : ProjectFile}
    (hf : f ∈ (w.store.index setup.grammar w.objects project).files) (hp : f.project = project) :
    ∃ g ∈ w.store.files, g.project = project ∧ f = g.reparse setup.grammar w.objects := by
  obtain ⟨g, hg, rfl⟩ := Store.mem_updateWhere.mp hf
  split at hp
  · rw [if_pos ‹_›]
    exact ⟨g, hg, hp, rfl⟩
  · exact absurd (decide_eq_true hp) ‹_›

theorem World.Reindexed.of_index (hobjects : v.objects = w.objects)
    (hstore : v.store = w.store.index setup.grammar w.objects project) :
    w.Reindexed setup project v := by
  constructor
  case parsed =>
    intro f hf hp content language hget hl
    rw [hstore] at hf
    rw [hobjects] at hget
    obtain ⟨g, -, -, rfl⟩ := exists_reparse hf hp
    exact reparsed_of_detect hget hl
  case missing =>
    intro f hf hp hget
    rw [hstore] at hf
    rw [hobjects] at hget
    obtain ⟨g, -, -, rfl⟩ := exists_reparse hf hp
    exact reparsed_of_missing hget
  case unsupported =>
    intro f hf hp hget hl
    obtain ⟨content, hget⟩ := Option.isSome_iff_exists.mp hget
    have hsame : f.reparse setup.grammar w.objects = f := by
      rw [ProjectFile.reparse, reparsed_of_unsupported hget hl]
    rw [hstore]
    refine Store.mem_updateWhere.mpr ⟨f, hf, ?_⟩
    rw [if_pos (decide_eq_true hp)]
    exact hsame
  case files =>
    rw [hstore]
    exact (Store.alike_index _ _ _ _).files
  case otherFiles =>
    rw [hstore]
    simp only [ne_eq, decide_not]
    exact Store.filter_not_updateWhere (p := fun f : ProjectFile => f.project = project)
      (f := (·.reparse setup.grammar w.objects)) (fun _ => rfl) w.store.files
  case edges =>
    rw [hstore]
    exact Store.parsed_withGraph fun e he => DependencyEdge.method_of_mem_merge he
  case otherEdges =>
    rw [hstore]
    exact Store.filter_not_isParsed_withGraph _
  case external =>
    rw [hstore]
    exact Store.external_withGraph _
  case otherExternal =>
    rw [hstore]
    exact Store.filter_external_withGraph _
  case tables =>
    rw [hstore]
    rfl
  case objects => exact hobjects

theorem exists_indexProject (setup : Setup) {p : Project} (hw : w.store.Consistent)
    (hp : w.store.project? project = .ok (some p)) (hread : w.store.Legible project) :
    ∃ report v, exec (indexProject setup project) w = (.ok report, v) ∧
      v.store = w.store.index setup.grammar w.objects project := by
  obtain ⟨report, v, he, -, hstore⟩ := (indexProject_succeeds hw setup hp hread).exists_ok
  exact ⟨report, v, he, hstore⟩

/-- Whether the rows of a project can be read decides whether it can be indexed. -/
theorem exists_indexProject_iff {p : Project} (hw : w.store.Consistent)
    (hp : w.store.project? project = .ok (some p)) :
    (∃ report v, exec (indexProject setup project) w = (.ok report, v)) ↔
      w.store.Legible project := by
  constructor
  · rintro ⟨report, v, he⟩
    by_contra hnot
    have hfails : Yields (indexProject setup project) w (fun _ => True) fun _ _ => False :=
      Yields.need_ok hp (Yields.read (fun _ => trivial) fun files hfiles =>
        absurd (Store.legible_of_filesOf hfiles) hnot)
    exact hfails.of_ok he
  · intro hread
    obtain ⟨report, v, he, -⟩ := exists_indexProject setup hw hp hread
    exact ⟨report, v, he⟩

/-- Indexing a project that is there goes through when its rows can be read. It leaves the symbols
of the content and the graph of the symbols, and nothing else is different; and indexing the
project once more changes nothing and gives the same report. -/
theorem indexProject_settles {p : Project} (hw : w.store.Consistent)
    (hp : w.store.project? project = .ok (some p)) (hread : w.store.Legible project) :
    ∃ report v, exec (indexProject setup project) w = (.ok report, v) ∧
      w.Reindexed setup project v ∧
      ∃ v', exec (indexProject setup project) v = (.ok report, v') ∧
        v'.store = v.store ∧ v'.objects = v.objects := by
  obtain ⟨report, v, he, hreport, hobjects, hstore⟩ :=
    (indexProject_reports hw setup hp hread).exists_ok
  have hproject : w.store.hasProject project = true :=
    Store.hasProject_iff.mpr ⟨p, Store.mem_of_project? hp⟩
  have hw' : v.store.Consistent := hstore ▸ hw.index hproject
  have hp' : v.store.project? project = .ok (some p) := hstore ▸ hp
  have hread' : v.store.Legible project := hstore ▸ hread.reparse setup.grammar w.objects
  obtain ⟨report', v', he', hreport', hobjects', hstore'⟩ :=
    (indexProject_reports hw' setup hp' hread').exists_ok
  have hsame : report' = report := by
    rw [hreport', hreport, hobjects, hstore, Store.indexReport_index]
  have hstays : v'.store = v.store := by
    rw [hstore', hobjects, hstore, Store.index_index]
  subst hsame
  exact ⟨report', v, he, .of_index hobjects hstore, v', he', hstays, hobjects'⟩

end Indexed

/-! ## A project with old symbols -/

/-- The symbols that a file had at some time. -/
def sampleStale (path : String) : ParsedFile where
  path
  language := "text"
  exports := [{ name := "gone", kind := .function }]

/-- A file of the core, under its own key, with such symbols. -/
def sampleStaleFile (id path : String) : ProjectFile where
  id
  project := "shop"
  component := some "core"
  path
  storageKey := fileKey "shop" path
  symbols := some (sampleStale path)

/-- A text that was there but is not any more. -/
def sampleNotes : ProjectFile := sampleStaleFile "f4" "core/notes.md"

/-- Four files with old symbols: two have content, of which one has a language, and two have none.
An edge comes from the parser, one from a language model. -/
def sampleAged : World := run sampleSetup { clock := ⟨0⟩ }
  [.enter (.project sampleShop),
    .enter (.project { id := "bakery", name := "Bakery", owner := "olga", strictness := .soft }),
    .enter (.component { id := "core", project := "shop", name := "Core" }),
    .enter (.component { id := "ui", project := "shop", name := "UI" }),
    .enter (.file (sampleStaleFile "f1" "core/price.ts")),
    .enter (.file (sampleStaleFile "f2" "core/rate.ts")),
    .enter (.file (sampleStaleFile "f3" "core/readme.md")),
    .enter (.file sampleNotes),
    .enter (.file { sampleStaleFile "f5" "bread.ts" with project := "bakery", component := none }),
    .enter (.edge "shop" { source := "core", target := "ui" }),
    .enter (.edge "shop" { source := "ui", target := "core", method := .llm, confidence := 0.5 }),
    .objects (·.put (fileKey "shop" "core/price.ts") [10]),
    .objects (·.put (fileKey "shop" "core/readme.md") [10])]

theorem reachable_sampleAged : Reachable sampleSetup sampleAged :=
  (Reachable.start rfl rfl).run _

theorem project?_sampleAged : sampleAged.store.project? "shop" = .ok (some sampleShop) :=
  reachable_sampleAged.intact.project?_eq (p := sampleShop) (by decide +kernel)

theorem legible_sampleAged : sampleAged.store.Legible "shop" :=
  Store.legible_of_readable reachable_sampleAged.intact.readable "shop"

theorem sample_index_settles :
    sampleAged.store.Consistent ∧ sampleAged.store.project? "shop" = .ok (some sampleShop) ∧
    sampleAged.store.Legible "shop" ∧
    ((sampleAged.store.files.map fun f =>
      ((sampleAged.objects.get? f.storageKey).isSome, (Language.detect f.path).isSome)) =
      [(true, true), (false, true), (true, false), (false, false), (false, true)]) ∧
    ∃ report v, exec (indexProject sampleSetup "shop") sampleAged = (.ok report, v) ∧
      sampleAged.Reindexed sampleSetup "shop" v ∧
      ∃ v', exec (indexProject sampleSetup "shop") v = (.ok report, v') ∧
        v'.store = v.store ∧ v'.objects = v.objects := by
  have hconsistent : sampleAged.store.Consistent := reachable_sampleAged.intact.toConsistent
  refine ⟨hconsistent, project?_sampleAged, legible_sampleAged, by decide +kernel, ?_⟩
  exact indexProject_settles hconsistent project?_sampleAged legible_sampleAged

/-- The same tables with symbols that someone wrote and nobody can read. -/
def sampleGarbled : World :=
  { sampleAged with store := { sampleAged.store with damaged := [⟨.symbols, "f1"⟩] } }

/-- A file without a language does not keep its symbols when its content is missing, and where the
symbols of a file cannot be read the project is not indexed. -/
theorem sample_index_forgets :
    (sampleNotes ∈ sampleAged.store.files ∧ sampleNotes.project = "shop" ∧
      Language.detect sampleNotes.path = none ∧
      ∃ report v, exec (indexProject sampleSetup "shop") sampleAged = (.ok report, v) ∧
        ∀ f ∈ v.store.files, f.id = sampleNotes.id → f.symbols ≠ sampleNotes.symbols) ∧
    sampleGarbled.store.Consistent ∧
    sampleGarbled.store.project? "shop" = .ok (some sampleShop) ∧
    ¬ ∃ report v, exec (indexProject sampleSetup "shop") sampleGarbled = (.ok report, v) := by
  have hconsistent : sampleAged.store.Consistent := reachable_sampleAged.intact.toConsistent
  have hgarbled : sampleGarbled.store.Consistent := { hconsistent with }
  have hproject : sampleGarbled.store.project? "shop" = .ok (some sampleShop) := by
    decide +kernel
  constructor
  · obtain ⟨report, v, he, hstore⟩ := exists_indexProject sampleSetup hconsistent
      project?_sampleAged legible_sampleAged
    refine ⟨by decide +kernel, rfl, by decide +kernel, report, v, he, ?_⟩
    have hfiles : v.store.files =
        (sampleAged.store.reparse sampleSetup.grammar sampleAged.objects "shop").files := by
      rw [hstore]
      rfl
    rw [hfiles]
    decide +kernel
  · refine ⟨hgarbled, hproject, ?_⟩
    rw [exists_indexProject_iff hgarbled hproject]
    intro hread
    have hcell := hread (sampleStaleFile "f1" "core/price.ts") (by decide +kernel) rfl
    exact absurd hcell (by decide +kernel)

end ChangeImpact
