import ChangeImpact.Proofs.Graph.Stored
import ChangeImpact.Proofs.Objects.Stored

/-!
# What indexing writes

Indexing a project gives every file the symbols of the content that is stored for it and
then builds the graph from these symbols. Each symbol is written by a statement of its
own; as every file is written at most once, all of them together renew the files of the
project in one go.
-/

namespace ChangeImpact

open Operation

/-- The symbols of a file after its project was indexed. A file without content loses them, and
one without a language keeps those it had. -/
def reparsed (grammar : Grammar) (o : Objects) (f : ProjectFile) : Option ParsedFile :=
  match o.get? f.storageKey with
  | none => none
  | some content => (parseFile grammar f.path content).map (·.parsed) <|> f.symbols

/-- The file after a statement that writes symbols, maybe to another one. -/
def ProjectFile.assign (f : ProjectFile) (x : String × Option ParsedFile) : ProjectFile :=
  if f.id = x.1 then { f with symbols := x.2 } else f

theorem ProjectFile.assign_of_eq {f : ProjectFile} {x : String × Option ParsedFile}
    (h : x.1 = f.id) : f.assign x = { f with symbols := x.2 } := if_pos h.symm

theorem ProjectFile.assign_of_ne {f : ProjectFile} {x : String × Option ParsedFile}
    (h : x.1 ≠ f.id) : f.assign x = f := if_neg (Ne.symm h)

/-- A file that is not written keeps its symbols. -/
theorem ProjectFile.foldl_assign_of_ne {f : ProjectFile} {xs : List (String × Option ParsedFile)}
    (h : ∀ x ∈ xs, x.1 ≠ f.id) : xs.foldl (fun f x => f.assign x) f = f := by
  induction xs with
  | nil => rfl
  | cons x xs ih =>
    rw [List.foldl_cons, ProjectFile.assign_of_ne (h x (List.mem_cons_self ..))]
    exact ih fun y hy => h y (List.mem_cons_of_mem _ hy)

/-- A file that is written, always with the same symbols, has these afterwards. -/
theorem ProjectFile.foldl_assign_of_mem {f : ProjectFile} {symbols : Option ParsedFile}
    {xs : List (String × Option ParsedFile)} (h : ∀ x ∈ xs, x.1 = f.id → x.2 = symbols)
    (hmem : (f.id, symbols) ∈ xs) :
    xs.foldl (fun f x => f.assign x) f = { f with symbols } := by
  induction xs generalizing f with
  | nil => cases hmem
  | cons x xs ih =>
    have htail (y : String × Option ParsedFile) (hy : y ∈ xs) := h y (List.mem_cons_of_mem _ hy)
    rw [List.foldl_cons]
    by_cases hid : x.1 = f.id
    · rw [ProjectFile.assign_of_eq hid, h x (List.mem_cons_self ..) hid]
      by_cases hagain : (f.id, symbols) ∈ xs
      · exact ih (f := { f with symbols }) htail hagain
      · refine ProjectFile.foldl_assign_of_ne fun y hy hyid => hagain ?_
        have hpair : y = (f.id, symbols) := Prod.ext hyid (htail y hy hyid)
        exact hpair ▸ hy
    · rw [ProjectFile.assign_of_ne hid]
      refine ih htail ((List.mem_cons.mp hmem).resolve_left fun heq => hid ?_)
      rw [← heq]

namespace Store

variable {s : Store} {project : String} {xs : List (String × Option ParsedFile)}

/-- The tables with the files of a project parsed again. -/
def reparse (grammar : Grammar) (o : Objects) (project : String) (s : Store) : Store :=
  { s with
    files := updateWhere (·.project = project)
      (fun f => { f with symbols := reparsed grammar o f }) s.files }

/-- Write symbols to one file after the other. -/
def assign (xs : List (String × Option ParsedFile)) (s : Store) : Store :=
  xs.foldl (fun s x =>
    { s with files := updateWhere (·.id = x.1) (fun f => { f with symbols := x.2 }) s.files }.mend
      .symbols (· = x.1)) s

theorem assign_append (ys : List (String × Option ParsedFile)) :
    s.assign (xs ++ ys) = (s.assign xs).assign ys :=
  List.foldl_append ..

/-- Writing to a cell that can be read mends nothing. -/
theorem mend_of_isReadable {c : Column} {row : String} (h : s.isReadable [c] row = true) :
    s.mend c (· = row) = s := by
  have hcell : (⟨c, row⟩ : Cell) ∉ s.damaged := by
    simpa [isReadable] using h
  have hkeep : s.damaged.filter (fun cell => cell.column ≠ c || !decide (cell.row = row)) =
      s.damaged := by
    refine List.filter_eq_self.mpr fun cell hmem => ?_
    by_cases hc : cell.column = c
    · have hrow : cell.row ≠ row := by
        rintro rfl
        exact hcell (hc ▸ hmem)
      simp [hrow]
    · simp [hc]
  rw [mend, hkeep]

/-- Writing symbols that can be read changes nothing but files. -/
theorem assign_eq (h : ∀ x ∈ xs, s.isReadable [.symbols] x.1 = true) :
    s.assign xs = { s with files := (s.assign xs).files } := by
  induction xs generalizing s with
  | nil => rfl
  | cons x xs ih =>
    let written : Store := { s with
      files := updateWhere (·.id = x.1) (fun f => { f with symbols := x.2 }) s.files }
    have hfirst : s.assign (x :: xs) = written.assign xs :=
      congrArg (assign xs)
        (mend_of_isReadable (s := written) (h x (List.mem_cons_self ..)))
    rw [hfirst, ih (s := written) fun y hy => h y (List.mem_cons_of_mem _ hy)]

theorem files_assign :
    (s.assign xs).files = s.files.map fun f => xs.foldl (fun f x => f.assign x) f := by
  have hfold : (s.assign xs).files = xs.foldl (fun files x =>
      updateWhere (·.id = x.1) (fun f => { f with symbols := x.2 }) files) s.files := by
    induction xs generalizing s with
    | nil => rfl
    | cons x xs ih => exact ih
  rw [hfold]
  refine (foldl_updateWhere xs s.files).trans ?_
  simp only [decide_eq_true_eq, ProjectFile.assign]

end Store

/-- Files keep their identifiers. -/
theorem Store.hasFile_assign {s : Store} (xs : List (String × Option ParsedFile)) (id : String) :
    (s.assign xs).hasFile id = s.hasFile id := by
  have hid (f : ProjectFile) : (xs.foldl (fun f x => f.assign x) f).id = f.id := by
    induction xs generalizing f with
    | nil => rfl
    | cons x xs ih =>
      rw [List.foldl_cons, ih, ProjectFile.assign]
      split <;> rfl
  rw [hasFile, files_assign, List.any_map, hasFile]
  exact congrArg (List.any s.files) (funext fun f => by rw [Function.comp_apply, hid])

/-- A batch of writes to files that are there. -/
theorem exec_forM_setSymbols {α : Type} (xs : List α) (id : α → String)
    (symbols : α → Option ParsedFile) {w : World}
    (h : ∀ x ∈ xs, w.store.hasFile (id x) = true) :
    exec (xs.forM fun x => write (·.setSymbols (id x) (symbols x))) w =
      (.ok ⟨⟩, { w with store := w.store.assign (xs.map fun x => (id x, symbols x)) }) := by
  induction xs generalizing w with
  | nil => rfl
  | cons x xs ih =>
    have hone : w.store.setSymbols (id x) (symbols x) =
        .ok (w.store.assign [(id x, symbols x)]) :=
      Store.demand_bind_ok.mpr ⟨h x (List.mem_cons_self ..), rfl⟩
    rw [List.forM, exec_bind, exec_write, hone]
    refine (ih (w := { w with store := w.store.assign [(id x, symbols x)] }) fun y hy =>
      (Store.hasFile_assign _ (id y)).trans (h y (List.mem_cons_of_mem _ hy))).trans ?_
    rw [← Store.assign_append]
    rfl

theorem Yields.forM_setSymbols {α β : Type} {xs : List α} {id : α → String}
    {symbols : α → Option ParsedFile} {f : PUnit → Operation β} {w : World} {E : World → Prop}
    {Q : β → World → Prop} (hx : ∀ x ∈ xs, w.store.hasFile (id x) = true)
    (h : Yields (f ⟨⟩)
      { w with store := w.store.assign (xs.map fun x => (id x, symbols x)) } E Q) :
    Yields ((xs.forM fun x => Operation.write (·.setSymbols (id x) (symbols x))) >>= f) w E Q := by
  rwa [Yields, exec_bind_ok (exec_forM_setSymbols xs id symbols hx)]

section Assignments

variable {grammar : Grammar} {o : Objects} {files rows : List ProjectFile} {f : ProjectFile}

/-- The files whose content is stored and has a language, with the symbols of the content. -/
def parsedFiles (grammar : Grammar) (o : Objects) (files : List ProjectFile) :
    List (ProjectFile × ParsedFile) :=
  files.filterMap fun f => (o.get? f.storageKey).bind fun content =>
    (parseFile grammar f.path content).map fun e => (f, e.parsed)

/-- The files without content. -/
def missingFiles (o : Objects) (files : List ProjectFile) : List ProjectFile :=
  files.filter fun f => (o.get? f.storageKey).isNone

/-- The symbols that indexing writes, and to which files. -/
def assignments (grammar : Grammar) (o : Objects) (files : List ProjectFile) :
    List (String × Option ParsedFile) :=
  (parsedFiles grammar o files).map (fun x => (x.1.id, some x.2)) ++
    (missingFiles o files).map fun f => (f.id, none)

/-- The symbols of a file go by its path. -/
theorem path_of_parseFile {path : String} {content : Bytes} {e : Extracted}
    (h : parseFile grammar path content = some e) : e.parsed.path = path := by
  obtain ⟨language, -, rfl⟩ := Option.map_eq_some_iff.mp h
  rfl

private theorem mem_parsedFiles {symbols : ParsedFile} :
    (f, symbols) ∈ parsedFiles grammar o files ↔ f ∈ files ∧ ∃ content e,
      o.get? f.storageKey = some content ∧ parseFile grammar f.path content = some e ∧
        e.parsed = symbols := by
  rw [parsedFiles, List.mem_filterMap]
  constructor
  · rintro ⟨g, hg, hparse⟩
    obtain ⟨content, hget, hparse⟩ := Option.bind_eq_some_iff.mp hparse
    obtain ⟨e, he, heq⟩ := Option.map_eq_some_iff.mp hparse
    cases heq
    exact ⟨hg, content, e, hget, he, rfl⟩
  · rintro ⟨hf, content, e, hget, he, rfl⟩
    exact ⟨f, hf, by rw [hget, Option.bind_some, he, Option.map_some]⟩

private theorem mem_missingFiles :
    f ∈ missingFiles o files ↔ f ∈ files ∧ o.get? f.storageKey = none := by
  rw [missingFiles, List.mem_filter, Option.isNone_iff_eq_none]

section Distinct

variable (hd : ∀ f ∈ files, ∀ g ∈ files, f.path = g.path → f = g)
include hd

/-- Files with different paths are found under their paths. -/
theorem listedAt?_path (hf : f ∈ files) : listedAt? files f.path = some f := by
  cases hfind : listedAt? files f.path with
  | none =>
    have hne := List.find?_eq_none.mp hfind f hf
    simp at hne
  | some g =>
    have hpath : g.path = f.path := by simpa using List.find?_some hfind
    rw [hd g (List.mem_of_find?_eq_some hfind) f hf hpath]

/-- As paths differ, the symbols that come out of a batch go to the files that they are from. -/
theorem filterMap_parseSources :
    (parseSources grammar (fetchAll o files).1).parsed.filterMap
      (fun e => (listedAt? files e.parsed.path).map fun f => (f, e.parsed)) =
      parsedFiles grammar o files := by
  rw [parseSources, fetchAll, List.filterMap_filterMap, List.filterMap_filterMap]
  refine List.filterMap_congr fun f hf => ?_
  rw [Objects.toOption_get]
  cases o.get? f.storageKey with
  | none => rfl
  | some content =>
    dsimp only [Option.map_some, Option.bind_some]
    cases he : parseFile grammar f.path content with
    | none => rfl
    | some e =>
      rw [Option.bind_some, path_of_parseFile he, listedAt?_path hd hf]
      rfl

/-- The failures of a batch go to the files without content. -/
theorem filterMap_failed :
    (fetchAll o files).2.filterMap (listedAt? files ·.path) = missingFiles o files := by
  rw [fetchAll, List.filterMap_filterMap, missingFiles, ← List.filterMap_eq_filter]
  refine List.filterMap_congr fun f hf => ?_
  rw [Objects.get]
  cases hget : o.get? f.storageKey with
  | none =>
    dsimp only [Option.bind_some]
    rw [listedAt?_path hd hf, Option.guard, hget]
    rfl
  | some content =>
    rw [Option.guard, hget]
    rfl

end Distinct

/-- What is written to a file are the symbols that it gets. -/
private theorem of_mem_assignments {x : String × Option ParsedFile}
    (hx : x ∈ assignments grammar o files) :
    ∃ f ∈ files, f.id = x.1 ∧ reparsed grammar o f = x.2 := by
  rcases List.mem_append.mp hx with hx | hx
  · obtain ⟨⟨f, symbols⟩, hmem, rfl⟩ := List.mem_map.mp hx
    obtain ⟨hf, content, e, hget, he, rfl⟩ := mem_parsedFiles.mp hmem
    refine ⟨f, hf, rfl, ?_⟩
    rw [reparsed, hget]
    dsimp only
    rw [he]
    rfl
  · obtain ⟨y, hy, rfl⟩ := List.mem_map.mp hx
    obtain ⟨hf, hget⟩ := mem_missingFiles.mp hy
    exact ⟨y, hf, rfl, by rw [reparsed, hget]⟩

/-- A file to which nothing is written keeps the symbols that it has. -/
private theorem mem_assignments_or (hf : f ∈ files) :
    (f.id, reparsed grammar o f) ∈ assignments grammar o files ∨
      reparsed grammar o f = f.symbols := by
  cases hget : o.get? f.storageKey with
  | none =>
    have hmissing : f ∈ missingFiles o files := mem_missingFiles.mpr ⟨hf, hget⟩
    refine Or.inl (List.mem_append_right _ (List.mem_map.mpr ⟨f, hmissing, ?_⟩))
    rw [reparsed, hget]
  | some content =>
    have hsymbols : reparsed grammar o f =
        ((parseFile grammar f.path content).map (·.parsed) <|> f.symbols) := by
      rw [reparsed, hget]
    cases he : parseFile grammar f.path content with
    | none => exact Or.inr (by rw [hsymbols, he]; rfl)
    | some e =>
      refine Or.inl (List.mem_append_left _ (List.mem_map.mpr ⟨(f, e.parsed), ?_, ?_⟩))
      · exact mem_parsedFiles.mpr ⟨hf, content, e, hget, he, rfl⟩
      · rw [hsymbols, he]
        rfl

/-- All that indexing writes gives each listed file its symbols. -/
theorem foldl_assignments (hk : Store.Keyed (·.id) rows) (hsub : files ⊆ rows) (hf : f ∈ rows) :
    (assignments grammar o files).foldl (fun f x => f.assign x) f =
      if f ∈ files then { f with symbols := reparsed grammar o f } else f := by
  have hown (x : String × Option ParsedFile) (hx : x ∈ assignments grammar o files)
      (hid : x.1 = f.id) : f ∈ files ∧ x = (f.id, reparsed grammar o f) := by
    obtain ⟨g, hg, hgid, hsymbols⟩ := of_mem_assignments hx
    have hgf : g = f := hk.eq_of_key_eq (hsub hg) hf (hgid.trans hid)
    subst hgf
    exact ⟨hg, Prod.ext hid hsymbols.symm⟩
  by_cases hmem : (f.id, reparsed grammar o f) ∈ assignments grammar o files
  · rw [if_pos (hown _ hmem rfl).1]
    exact ProjectFile.foldl_assign_of_mem (fun x hx hid => by rw [(hown x hx hid).2]) hmem
  · rw [ProjectFile.foldl_assign_of_ne fun x hx hid => hmem ((hown x hx hid).2 ▸ hx)]
    split
    · rw [(mem_assignments_or ‹f ∈ files›).resolve_left hmem]
    · rfl

end Assignments

/-- The files of a project after all that indexing writes. -/
theorem Store.files_assignments {s : Store} (h : s.Consistent) (grammar : Grammar) (o : Objects)
    (project : String) :
    (s.assign (assignments grammar o (byPath (s.files.filter (·.project = project))))).files =
      (s.reparse grammar o project).files := by
  rw [files_assign]
  refine List.map_congr_left fun f hf => ?_
  have hlisted : f ∈ byPath (s.files.filter (·.project = project)) ↔ f.project = project := by
    rw [byPath, Ordered.mem_sortBy, List.mem_filter, decide_eq_true_eq, and_iff_right hf]
  have hsub : byPath (s.files.filter (·.project = project)) ⊆ s.files := fun g hg =>
    List.mem_of_mem_filter (Ordered.mem_sortBy.mp hg)
  rw [foldl_assignments h.fileIds hsub hf]
  simp only [hlisted, decide_eq_true_eq]

theorem Store.Consistent.reparse {s : Store} (h : s.Consistent) (grammar : Grammar) (o : Objects)
    (project : String) : (s.reparse grammar o project).Consistent :=
  { h with
    fileIds := h.fileIds.updateWhere fun _ _ => rfl
    filePlaces := h.filePlaces.updateWhere fun _ _ => rfl
    fileProjects := h.fileProjects.updateWhere fun _ _ => rfl
    fileComponents := h.fileComponents.updateWhere fun _ _ => rfl
    draftFiles := h.draftFiles.update_targets fun _ _ => rfl }

theorem Store.Legible.reparse {s : Store} {project : String} (h : s.Legible project)
    (grammar : Grammar) (o : Objects) : (s.reparse grammar o project).Legible project := by
  intro f hf hfp
  obtain ⟨g, hg, rfl⟩ := Store.mem_updateWhere.mp hf
  split at hfp
  · rw [if_pos ‹_›]
    exact h g hg hfp
  · rw [if_neg ‹_›]
    exact h g hg hfp

/-- The tables with the files of a project parsed again and the graph built from them. -/
def Store.index (grammar : Grammar) (o : Objects) (project : String) (s : Store) : Store :=
  let parsed := s.reparse grammar o project
  parsed.withGraph project (DependencyGraph.build (parsed.indexed project))

/-- What indexing a project answers. -/
def Store.indexReport (grammar : Grammar) (o : Objects) (project : String) (s : Store) :
    IndexReport :=
  let files := byPath (s.files.filter (·.project = project))
  let graph := DependencyGraph.build ((s.reparse grammar o project).indexed project)
  { parsed := (parsedFiles grammar o files).length
    skipped := (parseSources grammar (fetchAll o files).1).skipped.length
    failed := (fetchAll o files).2
    edges := graph.edges.length
    external := graph.external.length }

/-- The files of a project that can be read are parsed again, the graph is built from them, and
nothing else that is stored changes. -/
theorem indexProject_reports {w : World} (hw : w.store.Consistent) (setup : Setup)
    {project : String} {p : Project} (hp : w.store.project? project = .ok (some p))
    (hread : w.store.Legible project) :
    Succeeds (indexProject setup project) w fun report w' =>
      report = w.store.indexReport setup.grammar w.objects project ∧
        w'.objects = w.objects ∧ w'.store = w.store.index setup.grammar w.objects project := by
  have hfiles := Store.files_assignments hw setup.grammar w.objects project
  rw [Store.indexReport]
  generalize hlisted : Store.byPath (w.store.files.filter (·.project = project)) = files at hfiles
  have hmem (f : ProjectFile) (hf : f ∈ files) : f ∈ w.store.files ∧ f.project = project := by
    rw [← hlisted] at hf
    obtain ⟨hf, hfp⟩ := List.mem_filter.mp (Ordered.mem_sortBy.mp hf)
    exact ⟨hf, of_decide_eq_true hfp⟩
  have hd (f : ProjectFile) (hf : f ∈ files) (g : ProjectFile) (hg : g ∈ files)
      (hpath : f.path = g.path) : f = g :=
    hw.filePlaces.eq_of_key_eq (hmem f hf).1 (hmem g hg).1
      (Prod.ext ((hmem f hf).2.trans (hmem g hg).2.symm) hpath)
  have hthere (f : ProjectFile) (hf : f ∈ files) : w.store.hasFile f.id = true :=
    Store.hasFile_iff.mpr ⟨f, (hmem f hf).1, rfl⟩
  have hassigned : w.store.assign (assignments setup.grammar w.objects files) =
      w.store.reparse setup.grammar w.objects project := by
    rw [Store.assign_eq, hfiles, Store.reparse]
    intro x hx
    obtain ⟨f, hf, hid, -⟩ := of_mem_assignments hx
    exact hid ▸ hread f (hmem f hf).1 (hmem f hf).2
  refine Yields.need_ok hp (Yields.read_ok (Store.filesOf_of_legible hread) (Yields.get ?_))
  rw [hlisted]
  dsimp only
  rw [filterMap_parseSources hd, filterMap_failed hd]
  refine Yields.forM_setSymbols (fun x hx => hthere x.1 (mem_parsedFiles.mp hx).1) ?_
  refine Yields.forM_setSymbols (fun f hf => (Store.hasFile_assign _ _).trans
    (hthere f (mem_missingFiles.mp hf).1)) ?_
  rw [← Store.assign_append]
  change Yields _ { w with store := w.store.assign (assignments setup.grammar w.objects files) } _ _
  rw [hassigned]
  refine Yields.bind (rebuildGraph_builds (hw.reparse setup.grammar w.objects project)
    (hread.reparse setup.grammar w.objects) ?_) ?_
  · exact Store.hasProject_iff.mpr ⟨p, Store.mem_of_project? hp⟩
  · rintro g _ ⟨rfl, rfl⟩
    exact Yields.publish ⟨rfl, rfl, rfl⟩

theorem indexProject_succeeds {w : World} (hw : w.store.Consistent) (setup : Setup)
    {project : String} {p : Project} (hp : w.store.project? project = .ok (some p))
    (hread : w.store.Legible project) :
    Succeeds (indexProject setup project) w fun _ w' =>
      w'.objects = w.objects ∧ w'.store = w.store.index setup.grammar w.objects project :=
  Yields.imp (indexProject_reports hw setup hp hread) (fun _ hf => hf) fun _ _ h => h.2

end ChangeImpact
