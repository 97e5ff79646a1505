import ChangeImpact.Proofs.Graph.Index
import ChangeImpact.Proofs.Path.Resolution

/-!
# Who exports a name

An index lists under a name every path under which some file with that export was given, also
when a later file has taken the place of that one. So the list is that of the files that export
the name exactly if no file was replaced by one that lacks an export of it.
-/

namespace ChangeImpact

/-- A file exports a name. -/
def IndexedFile.Exports (f : IndexedFile) (name : String) : Prop :=
  ∃ x ∈ f.parsed.exports, x.name = name

namespace ExportIndex

variable {files : List IndexedFile} {f : IndexedFile} {path p name : String}
  {exporters : List (String × List String)}

/-! ## Adding a file -/

/-- Exporters by name, where the names ascend and so do the paths under each of them. -/
structure Sorted (exporters : List (String × List String)) : Prop where
  names : (exporters.map (·.1)).Pairwise (· < ·)
  paths : ∀ entry ∈ exporters, entry.2.Pairwise (· < ·)

/-- The paths that are listed under a name. -/
def listed (exporters : List (String × List String)) (name : String) : List String :=
  (Ordered.find? name exporters).getD []

theorem Sorted.pairwise_listed (h : Sorted exporters) (name : String) :
    (listed exporters name).Pairwise (· < ·) := by
  rw [listed]
  cases hfound : Ordered.find? name exporters with
  | none => exact List.Pairwise.nil
  | some paths =>
    obtain ⟨entry, hentry, rfl⟩ := Option.map_eq_some_iff.mp hfound
    exact h.paths entry (List.mem_of_find?_eq_some hentry)

theorem Sorted.addExporter (h : Sorted exporters) (path : String) (x : Export) :
    Sorted (addExporter path exporters x) where
  names := Ordered.pairwise_keys_alter h.names
  paths entry hentry := by
    rcases Ordered.mem_alter hentry with hentry | ⟨old, rfl, hold⟩
    · exact h.paths entry hentry
    · cases old with
      | none => exact List.pairwise_singleton _ _
      | some paths => exact Ordered.pairwise_insert (h.paths (x.name, paths) (hold paths rfl))

theorem Sorted.mem_listed_addExporter (h : Sorted exporters) {x : Export} :
    p ∈ listed (ExportIndex.addExporter path exporters x) name ↔
      (p = path ∧ x.name = name) ∨ p ∈ listed exporters name := by
  rw [listed, ExportIndex.addExporter, Ordered.find?_alter h.names]
  by_cases hname : name = x.name
  · rw [if_pos hname, Option.getD_some, Ordered.mem_insert, ← hname, listed,
      and_iff_left rfl]
  · rw [if_neg hname, listed]
    exact (or_iff_right fun hx => hname hx.2.symm).symm

theorem Sorted.addExporters (h : Sorted exporters) (path : String) (exports : List Export) :
    Sorted (exports.foldl (ExportIndex.addExporter path) exporters) := by
  induction exports generalizing exporters with
  | nil => exact h
  | cons x exports ih => exact ih (h.addExporter path x)

/-- The exports of a file put its path under their names. -/
theorem Sorted.mem_listed_addExporters (h : Sorted exporters) {exports : List Export} :
    p ∈ listed (exports.foldl (ExportIndex.addExporter path) exporters) name ↔
      (p = path ∧ ∃ x ∈ exports, x.name = name) ∨ p ∈ listed exporters name := by
  induction exports generalizing exporters with
  | nil => simp
  | cons x exports ih =>
    rw [List.foldl_cons, ih (h.addExporter path x), h.mem_listed_addExporter,
      List.exists_mem_cons_iff, and_or_left, or_assoc, or_left_comm]

/-! ## All files -/

theorem sorted_build (files : List IndexedFile) : Sorted (build files).exporters := by
  induction files using List.reverseRecOn with
  | nil => exact ⟨List.Pairwise.nil, fun _ h => nomatch h⟩
  | append_singleton files f ih =>
    rw [build_append]
    exact ih.addExporters f.path f.parsed.exports

/-- Under a name stand the paths of all files given that export it. -/
theorem mem_exportersOf_build :
    p ∈ (build files).exportersOf name ↔ ∃ f ∈ files, f.path = p ∧ f.Exports name := by
  induction files using List.reverseRecOn with
  | nil => simp [build, exportersOf, Ordered.find?]
  | append_singleton files f ih =>
    have hstep : p ∈ (build (files ++ [f])).exportersOf name ↔
        (p = f.path ∧ f.Exports name) ∨ p ∈ (build files).exportersOf name := by
      rw [build_append]
      exact (sorted_build files).mem_listed_addExporters
    rw [hstep, ih]
    constructor
    · rintro (⟨rfl, hf⟩ | ⟨g, hg, hgpath, hgname⟩)
      · exact ⟨f, List.mem_append_right _ (List.mem_singleton_self f), rfl, hf⟩
      · exact ⟨g, List.mem_append_left _ hg, hgpath, hgname⟩
    · rintro ⟨g, hg, rfl, hgname⟩
      rcases List.mem_append.mp hg with hg | hg
      · exact .inr ⟨g, hg, rfl, hgname⟩
      · obtain rfl := List.mem_singleton.mp hg
        exact .inl ⟨rfl, hgname⟩

theorem pairwise_exportersOf_build (files : List IndexedFile) (name : String) :
    ((build files).exportersOf name).Pairwise (· < ·) :=
  (sorted_build files).pairwise_listed name

/-! ## The files behind the paths -/

/-- Under a path stands the file after which no other of that path was given. -/
theorem get?_build_eq_some_iff :
    (build files).get? path = some f ↔
      ∃ before after, files = before ++ f :: after ∧ f.path = path ∧
        ∀ g ∈ after, g.path ≠ path := by
  rw [get?_build, List.find?_eq_some_iff_append]
  constructor
  · rintro ⟨hpath, later, earlier, hsplit, hlater⟩
    refine ⟨earlier.reverse, later.reverse, ?_, of_decide_eq_true hpath, fun g hg => ?_⟩
    · rw [← List.reverse_reverse files, hsplit, List.reverse_append, List.reverse_cons,
        List.append_assoc, List.singleton_append]
    · have := hlater g (List.mem_reverse.mp hg)
      simpa using this
  · rintro ⟨before, after, rfl, hpath, hafter⟩
    refine ⟨decide_eq_true hpath, after.reverse, before.reverse, ?_, fun g hg => ?_⟩
    · rw [List.reverse_append, List.reverse_cons, List.append_assoc, List.singleton_append]
    · simpa using hafter g (List.mem_reverse.mp hg)

/-- Every path that was given leads to a file. -/
theorem exists_get?_build (h : ∃ f ∈ files, f.path = path) :
    ∃ g, (build files).get? path = some g := by
  obtain ⟨f, hf, rfl⟩ := h
  rw [get?_build, ← Option.isSome_iff_exists, List.find?_isSome]
  exact ⟨f, List.mem_reverse.mpr hf, decide_eq_true rfl⟩

theorem exists_get?_of_resolve {importer source : String}
    (h : (build files).resolve importer source = some path) :
    ∃ g, (build files).get? path = some g :=
  exists_get?_build (mem_paths_build.mp (Path.resolve_eq_some_iff.mp h).2.2.1)

/-- An index of files, of which several may share a path, resolves imports to paths that lead to
a file, has under each path the last file given, and lists under each name, ascending, the paths
under which a file with that export was given. The file under such a path exports the name itself
exactly if no file was replaced by one that lacks some of its exports. -/
theorem build_represents (files : List IndexedFile) :
    (∀ importer source path, (build files).resolve importer source = some path →
        ∃ f, (build files).get? path = some f) ∧
      (∀ path f, (build files).get? path = some f ↔
        ∃ before after, files = before ++ f :: after ∧ f.path = path ∧
          ∀ g ∈ after, g.path ≠ path) ∧
      (∀ name, ((build files).exportersOf name).Pairwise (· < ·)) ∧
      (∀ name path, path ∈ (build files).exportersOf name ↔
        ∃ f ∈ files, f.path = path ∧ f.Exports name) ∧
      ((∀ name path, path ∈ (build files).exportersOf name ↔
          ∃ f, (build files).get? path = some f ∧ f.Exports name) ↔
        ∀ f ∈ files, ∀ g, (build files).get? f.path = some g →
          ∀ name, f.Exports name → g.Exports name) := by
  refine ⟨fun _ _ _ => exists_get?_of_resolve, fun _ _ => get?_build_eq_some_iff,
    pairwise_exportersOf_build files, fun _ _ => mem_exportersOf_build, ?_⟩
  constructor
  · intro h f hf g hg name hname
    obtain ⟨g', hg', hname'⟩ := (h name f.path).mp (mem_exportersOf_build.mpr ⟨f, hf, rfl, hname⟩)
    rwa [Option.some.inj (hg.symm.trans hg')]
  · intro h name path
    rw [mem_exportersOf_build]
    constructor
    · rintro ⟨f, hf, rfl, hname⟩
      obtain ⟨g, hg⟩ := exists_get?_build ⟨f, hf, rfl⟩
      exact ⟨g, hg, h f hf g hg name hname⟩
    · rintro ⟨f, hf, hname⟩
      obtain ⟨hmem, hpath⟩ := mem_of_get?_build hf
      exact ⟨f, hmem, hpath, hname⟩

/-- A file without exports, given for a path. -/
def sampleReplacement : IndexedFile where
  component := some "app"
  parsed := { path := "core/price.ts", language := "typescript" }

/-- Another file of that path, with one export. -/
def sampleReplaced : IndexedFile where
  component := some "core"
  parsed :=
    { path := "core/price.ts", language := "typescript"
      exports := [{ name := "total", kind := .function, signature := "total()", line := 1 }] }

/-- The path of a replaced file stays among the exporters of a name that the file in its place
does not export. -/
theorem sample_replaced :
    (build [sampleReplaced, sampleReplacement]).exportersOf "total" = ["core/price.ts"] ∧
      (build [sampleReplaced, sampleReplacement]).get? "core/price.ts" = some sampleReplacement ∧
      ¬ sampleReplacement.Exports "total" :=
  ⟨by decide +kernel, by decide +kernel, fun ⟨_, hx, _⟩ => nomatch hx⟩

end ExportIndex

end ChangeImpact
