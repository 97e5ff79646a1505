import ChangeImpact.Graph.Index
import ChangeImpact.Proofs.Ordered
import Mathlib.Data.List.Induction
import Mathlib.Data.List.Sort
import Mathlib.Data.String.Basic

/-!
# What an index holds

An index built from a list of files gives back under a path the last file of that
path. When no two files share a path it holds exactly the files of the list, so
an import means a file of the list.
-/

namespace ChangeImpact.ExportIndex

variable {files : List IndexedFile} {f : IndexedFile} {path : String}

theorem build_append (files : List IndexedFile) (f : IndexedFile) :
    build (files ++ [f]) = (build files).add f := by
  rw [build, List.foldl_append]
  rfl

/-- The paths of an index ascend. -/
theorem pairwise_keys_build (files : List IndexedFile) :
    ((build files).files.map (·.1)).Pairwise (· < ·) := by
  induction files using List.reverseRecOn with
  | nil => exact List.Pairwise.nil
  | append_singleton files f ih =>
    rw [build_append]
    exact Ordered.pairwise_keys_alter ih

/-- Under a path stands the last file of that path. -/
theorem get?_build (files : List IndexedFile) (path : String) :
    (build files).get? path = files.reverse.find? (fun f => f.path = path) := by
  induction files using List.reverseRecOn with
  | nil => rfl
  | append_singleton files f ih =>
    rw [build_append, get?, add, Ordered.upsert, Ordered.find?_alter (pairwise_keys_build files),
      List.reverse_append, List.reverse_singleton, List.singleton_append, List.find?_cons]
    by_cases hp : path = f.path
    · rw [if_pos hp, hp, decide_eq_true rfl]
    · rw [if_neg hp, decide_eq_false (Ne.symm hp)]
      exact ih

/-- The entries of an index are files of the list under their own paths. -/
theorem mem_files_build {entry : String × IndexedFile} (h : entry ∈ (build files).files) :
    entry.2 ∈ files ∧ entry.2.path = entry.1 := by
  induction files using List.reverseRecOn with
  | nil => cases h
  | append_singleton files f ih =>
    rw [build_append] at h
    rcases Ordered.mem_alter h with h | ⟨old, rfl, -⟩
    · exact ⟨List.mem_append_left _ (ih h).1, (ih h).2⟩
    · exact ⟨List.mem_append_right _ (List.mem_singleton_self f), rfl⟩

theorem mem_of_mem_toList_build (h : f ∈ (build files).toList) : f ∈ files := by
  obtain ⟨entry, he, rfl⟩ := List.mem_map.mp h
  exact (mem_files_build he).1

/-- What is found under a path is a file of the list with that path. -/
theorem mem_of_get?_build (h : (build files).get? path = some f) : f ∈ files ∧ f.path = path := by
  rw [get?_build] at h
  have hp := List.find?_some h
  exact ⟨List.mem_reverse.mp (List.mem_of_find?_eq_some h), of_decide_eq_true hp⟩

theorem mem_toList_of_get? {index : ExportIndex} (h : index.get? path = some f) :
    f ∈ index.toList := by
  obtain ⟨entry, he, rfl⟩ := Option.map_eq_some_iff.mp h
  exact List.mem_map_of_mem (List.mem_of_find?_eq_some he)

/-- The known paths are those of the files. -/
theorem mem_paths_build : path ∈ (build files).paths ↔ ∃ f ∈ files, f.path = path := by
  constructor
  · intro h
    obtain ⟨entry, he, rfl⟩ := List.mem_map.mp h
    exact ⟨entry.2, mem_files_build he⟩
  · rintro ⟨f, hf, rfl⟩
    induction files using List.reverseRecOn with
    | nil => cases hf
    | append_singleton files g ih =>
      rw [build_append]
      refine Ordered.mem_keys_alter.mpr ?_
      rcases List.mem_append.mp hf with hf | hf
      · exact Or.inr (ih hf)
      · exact Or.inl (congrArg IndexedFile.path (List.mem_singleton.mp hf))

section Distinct

variable (hd : ∀ f ∈ files, ∀ g ∈ files, f.path = g.path → f = g)
include hd

/-- Without shared paths every file is found under its path. -/
theorem get?_build_of_mem (h : f ∈ files) : (build files).get? f.path = some f := by
  have hs : (files.reverse.find? fun g => g.path = f.path).isSome = true := by
    rw [List.find?_isSome]
    exact ⟨f, List.mem_reverse.mpr h, decide_eq_true rfl⟩
  obtain ⟨g, hg⟩ := Option.isSome_iff_exists.mp hs
  rw [get?_build, hg]
  have hm := mem_of_get?_build ((get?_build files f.path).trans hg)
  rw [hd g hm.1 f h hm.2]

theorem mem_toList_build : f ∈ (build files).toList ↔ f ∈ files :=
  ⟨mem_of_mem_toList_build, fun h => mem_toList_of_get? (get?_build_of_mem hd h)⟩

/-- The entries of an index are the files under their paths. -/
theorem mem_files_build_iff {entry : String × IndexedFile} :
    entry ∈ (build files).files ↔ entry.2 ∈ files ∧ entry.2.path = entry.1 := by
  refine ⟨mem_files_build, fun ⟨hf, hp⟩ => ?_⟩
  obtain ⟨found, hfound, he⟩ := Option.map_eq_some_iff.mp (get?_build_of_mem hd hf)
  have hkey : found.1 = entry.1 := by
    rw [← hp]
    simpa using List.find?_some hfound
  rw [← Prod.ext hkey he]
  exact List.mem_of_find?_eq_some hfound

/-- An import means a file when its path resolves to the path of that file. -/
theorem target?_build_eq_some {importer : String} {i : Import} :
    (build files).target? importer i = some f ↔
      f ∈ files ∧ Path.resolve importer i.source (build files).paths = some f.path := by
  rw [target?, Option.bind_eq_some_iff]
  constructor
  · rintro ⟨path, hr, hg⟩
    obtain ⟨hf, rfl⟩ := mem_of_get?_build hg
    exact ⟨hf, hr⟩
  · rintro ⟨hf, hr⟩
    exact ⟨f.path, hr, get?_build_of_mem hd hf⟩

end Distinct

/-- The files of an index stand in the order of their paths. -/
theorem map_path_toList_build : (build files).toList.map (·.path) = (build files).paths := by
  rw [toList, List.map_map, paths]
  exact List.map_congr_left fun entry he => (mem_files_build he).2

/-- Without shared paths the files of an index are those of the list, in the order of their
paths. -/
theorem toList_build_perm (h : (files.map (·.path)).Nodup) : (build files).toList.Perm files := by
  have hsorted : ((build files).toList.map (·.path)).Nodup := by
    rw [map_path_toList_build]
    exact (pairwise_keys_build files).imp fun hxy => ne_of_irrefl hxy
  rw [List.perm_ext_iff_of_nodup (List.Nodup.of_map _ hsorted) (List.Nodup.of_map _ h)]
  exact fun f => mem_toList_build (fun a ha b hb => List.inj_on_of_nodup_map h ha hb)

/-- Which files are in an index, and in which order, depends on the members of the list only. -/
theorem files_build_congr {files' : List IndexedFile} (h : (files.map (·.path)).Nodup)
    (h' : (files'.map (·.path)).Nodup) (hm : ∀ f, f ∈ files ↔ f ∈ files') :
    (build files).files = (build files').files := by
  have hs (fs : List IndexedFile) : (build fs).files.Pairwise (fun a b => a.1 < b.1) :=
    List.pairwise_map.mp (pairwise_keys_build fs)
  have : Std.Asymm (fun a b : String × IndexedFile => a.1 < b.1) :=
    ⟨fun a b hab hba => lt_asymm hab hba⟩
  refine List.Pairwise.eq_of_mem_iff (hs files) (hs files') fun entry => ?_
  rw [mem_files_build_iff fun a ha b hb => List.inj_on_of_nodup_map h ha hb,
    mem_files_build_iff fun a ha b hb => List.inj_on_of_nodup_map h' ha hb, hm]

/-- A file of one component imports a file of another in a way that has a property. -/
def Imports (index : ExportIndex) (source target : String)
    (P : Import → ParsedFile → Prop) : Prop :=
  ∃ f ∈ index.toList, f.component = some source ∧ ∃ i ∈ f.parsed.imports, i.isRelative = true ∧
    ∃ g, index.target? f.path i = some g ∧ g.component = some target ∧ P i g.parsed

end ChangeImpact.ExportIndex

namespace ChangeImpact.Path

/-- What an import means depends on which paths are known, not on how they are listed. -/
theorem resolve_congr {importer source : String} {known known' : List String}
    (h : ∀ p, p ∈ known ↔ p ∈ known') :
    resolve importer source known = resolve importer source known' := by
  have hc (c : String) : known.contains c = known'.contains c := by
    rw [Bool.eq_iff_iff, List.contains_iff_mem, List.contains_iff_mem]
    exact h c
  simp only [resolve, hc]

end ChangeImpact.Path
