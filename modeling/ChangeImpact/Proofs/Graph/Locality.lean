import ChangeImpact.Proofs.Graph.Exact
import ChangeImpact.Proofs.Graph.Merge

/-!
# Graphs of files that differ in one component

What an import means depends on the paths of the files and not on what is in them. So when the
files of one component get other symbols, and no path comes or goes, the edges between other
components and the imports that lead out of their files stay.
-/

namespace ChangeImpact

variable {component : String} {files files' : List IndexedFile}

/-- Two lists of files with the same paths differ at most in the files of a component. -/
structure IndexedFile.AgreeOutside (component : String) (files files' : List IndexedFile) :
    Prop where
  distinct : (files.map (·.path)).Nodup
  distinct' : (files'.map (·.path)).Nodup
  paths : ∀ path, path ∈ files.map (·.path) ↔ path ∈ files'.map (·.path)
  files : ∀ f, f.component ≠ some component → (f ∈ files ↔ f ∈ files')

/-- What leads out of a file is listed under its path. -/
theorem IndexedFile.filePath_of_mem_leaving {known : List String} {f : IndexedFile}
    {d : ExternalDependency} (hd : d ∈ f.leaving known) : d.filePath = f.path := by
  rw [leaving] at hd
  split at hd
  · obtain ⟨i, -, rfl⟩ := List.mem_map.mp hd
    rfl
  · cases hd

/-- What leads out depends on which paths are known. -/
theorem IndexedFile.leaving_congr {known known' : List String}
    (h : ∀ path, path ∈ known ↔ path ∈ known') : leaving known = leaving known' := by
  funext f
  simp only [leaving, Path.resolve_congr h]

namespace IndexedFile.AgreeOutside

theorem symm (h : AgreeOutside component files files') : AgreeOutside component files' files :=
  ⟨h.distinct', h.distinct, fun p => (h.paths p).symm, fun f hf => (h.files f hf).symm⟩

/-- The links between two other components are the same. -/
theorem links (h : AgreeOutside component files files') {source target : String}
    (hs : source ≠ component) (ht : target ≠ component) {i : Import} {g : IndexedFile}
    (hl : Links files source target i g) : Links files' source target i g := by
  obtain ⟨hrel, hg, hgt, f, hf, hfs, hi, hr⟩ := hl
  have hother {x : IndexedFile} {k : String} (hx : x.component = some k) (hk : k ≠ component) :
      x.component ≠ some component := by
    rw [hx]
    exact fun he => hk (Option.some.inj he)
  refine ⟨hrel, (h.files g (hother hgt ht)).mp hg, hgt, f, (h.files f (hother hfs hs)).mp hf, hfs,
    hi, ?_⟩
  rw [← hr]
  exact Path.resolve_congr fun p => (h.paths p).symm

/-- The files of other components stand in the same order in the index. -/
theorem toList_eq (h : AgreeOutside component files files') :
    (ExportIndex.build files).toList.filter (·.component ≠ some component) =
      (ExportIndex.build files').toList.filter (·.component ≠ some component) := by
  have hsorted (fs : List IndexedFile) :
      ((ExportIndex.build fs).toList.filter (·.component ≠ some component)).Pairwise
        (fun a b => a.path < b.path) := by
    refine (List.pairwise_map.mp ?_).filter _
    rw [ExportIndex.map_path_toList_build]
    exact ExportIndex.pairwise_keys_build fs
  have hmem {fs : List IndexedFile} (hd : (fs.map (·.path)).Nodup) (f : IndexedFile) :
      f ∈ (ExportIndex.build fs).toList ↔ f ∈ fs := (ExportIndex.toList_build_perm hd).mem_iff
  have : Std.Asymm (fun a b : IndexedFile => a.path < b.path) := ⟨fun a b => lt_asymm⟩
  refine (hsorted files).eq_of_mem_iff (hsorted files') fun f => ?_
  rw [List.mem_filter, List.mem_filter, hmem h.distinct, hmem h.distinct']
  exact and_congr_left fun hf => h.files f (of_decide_eq_true hf)

/-- An edge between two other components is in both graphs. -/
theorem mem_edges (h : AgreeOutside component files files') {e : DependencyEdge}
    (hs : e.source ≠ component) (ht : e.target ≠ component)
    (he : e ∈ (DependencyGraph.build files).edges) : e ∈ (DependencyGraph.build files').edges := by
  have hexact := DependencyGraph.exact_of_nodup h.distinct
  have hexact' := DependencyGraph.exact_of_nodup h.distinct'
  have hlinks (i : Import) (g : IndexedFile) :
      Links files e.source e.target i g ↔ Links files' e.source e.target i g :=
    ⟨h.links hs ht, h.symm.links hs ht⟩
  obtain ⟨d, hd, hends⟩ : ∃ d ∈ (DependencyGraph.build files').edges, d.ends = e.ends := by
    obtain ⟨hne, i, g, hl, hp⟩ := (hexact.connected _ _).mp (List.mem_map_of_mem he)
    exact List.mem_map.mp ((hexact'.connected _ _).mpr ⟨hne, i, g, (hlinks i g).mp hl, hp⟩)
  obtain ⟨hsource, htarget⟩ := Ends.mk.inj hends
  have hsymbols : e.symbols = d.symbols := by
    refine (hexact.ascending e he).eq_of_mem_iff (hexact'.ascending d hd) fun name => ?_
    rw [hexact.symbols e he, hexact'.symbols d hd, hsource, htarget]
    simp only [hlinks]
  rwa [DependencyEdge.eq_of_parsed (DependencyEdge.parsed_of_mem_merge he)
    (DependencyEdge.parsed_of_mem_merge hd) hends.symm hsymbols]

private theorem flatMap_filter {α β : Type} (p : α → Bool) (g : α → List β) (xs : List α) :
    (xs.filter p).flatMap g = xs.flatMap fun x => if p x then g x else [] := by
  induction xs with
  | nil => rfl
  | cons x xs ih => cases hx : p x <;> simp [hx, ih]

/-- The imports that lead out of the files of other components are listed the same. What counts
is told from the path of the file. -/
theorem external_eq (h : AgreeOutside component files files') {p : ExternalDependency → Bool}
    (hp : ∀ f, f ∈ files ∨ f ∈ files' → ∀ d : ExternalDependency, d.filePath = f.path →
      (p d = true ↔ f.component ≠ some component)) :
    (DependencyGraph.build files).external.filter p =
      (DependencyGraph.build files').external.filter p := by
  have hpart {fs : List IndexedFile} (hd : (fs.map (·.path)).Nodup)
      (hfs : ∀ f ∈ fs, f ∈ files ∨ f ∈ files') :
      (DependencyGraph.build fs).external.filter p =
        ((ExportIndex.build fs).toList.filter (·.component ≠ some component)).flatMap
          (leaving (fs.map (·.path))) := by
    rw [external_build, List.filter_flatMap, flatMap_filter]
    refine List.flatMap_congr fun f hf => ?_
    have hcounts := hp f (hfs f ((ExportIndex.toList_build_perm hd).mem_iff.mp hf))
    by_cases hc : f.component = some component
    · rw [if_neg (by simp [hc]), List.filter_eq_nil_iff]
      exact fun d hd hpd => (hcounts d (filePath_of_mem_leaving hd)).mp hpd hc
    · rw [if_pos (by simp [hc]), List.filter_eq_self]
      exact fun d hd => (hcounts d (filePath_of_mem_leaving hd)).mpr hc
  rw [hpart h.distinct fun f hf => Or.inl hf, hpart h.distinct' fun f hf => Or.inr hf, h.toList_eq,
    leaving_congr h.paths]

end IndexedFile.AgreeOutside

end ChangeImpact
