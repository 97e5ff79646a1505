import ChangeImpact.Scan.Walk
import ChangeImpact.Proofs.Ordered
import ChangeImpact.Proofs.Scan.Wildcard
import Mathlib.Data.String.Basic

/-!
# Sensitive names in a scan

The rules about sensitive names come before all ignore files, and a directory that is left out is
not entered. So no ignore file brings back what has a sensitive name on its way: a scan without
sensitive names finds what the scan of everything finds, less those files.
-/

namespace ChangeImpact

/-- Whether a name matches a sensitive pattern. -/
def isSensitive (name : String) : Bool :=
  sensitivePatterns.any (Glob.spells ·.toList name.toList)

/-- Whether no name of a path is sensitive. -/
def isHarmless (path : List String) : Bool := path.all (!isSensitive ·)

mutual
/-- Whether below an entry the names of each directory are distinct and hold no slash. -/
def Entry.isWellNamed : Entry → Bool
  | .directory entries => areWellNamed entries
  | _ => true

/-- Whether the names of a directory, and of all directories below it, are distinct and hold no
slash. -/
def Entry.areWellNamed : List (String × Entry) → Bool
  | [] => true
  | (name, e) :: rest =>
    !name.toList.contains '/' && !(rest.map (·.1)).contains name && e.isWellNamed &&
      areWellNamed rest
end

namespace Scan

variable {tree : FileTree} {root path above : List String} {name : String} {layers : List Layer}

/-- The rules about sensitive names leave out the paths with a sensitive last name and say nothing
of others. -/
theorem admits_sensitive (hname : path.getLast? = some name) (hslash : '/' ∉ name.toList)
    (isDirectory : Bool) :
    Context.admits ⟨sensitiveRules, layers⟩ path isDirectory =
      (!isSensitive name && Context.admits ⟨[], layers⟩ path isDirectory) := by
  have hfirst : IgnoreRule.verdict sensitiveRules path isDirectory =
      if isSensitive name then .ignored else .undecided :=
    IgnoreRule.verdict_namePatterns isNamePattern_of_sensitive hname hslash
  rw [Context.admits, Context.admits, Context.verdict, Context.verdict, hfirst]
  cases isSensitive name with
  | false => rfl
  | true => simp [Verdict.orElse]

mutual
/-- What is found below an entry has the names of the entry in front. -/
theorem prefix_of_mem_walk {c : Context} {f : List String × Bytes} {path : List String} :
    (e : Entry) → f ∈ walk tree root c path e → path <+: f.1
  | .file content, hf => by
    rw [walk] at hf
    split at hf
    · rw [List.mem_singleton.mp hf]
    · cases hf
  | .link _, hf => by cases hf
  | .directory entries, hf => by
    rw [walk] at hf
    split at hf
    · exact prefix_of_mem_walkAll entries hf
    · cases hf

theorem prefix_of_mem_walkAll {c : Context} {f : List String × Bytes} {path : List String} :
    (entries : List (String × Entry)) → f ∈ walkAll tree root c path entries → path <+: f.1
  | [], hf => by cases hf
  | (name, e) :: rest, hf => by
    rw [walkAll, List.mem_append] at hf
    rcases hf with hf | hf
    · exact (List.prefix_append _ _).trans (prefix_of_mem_walk e hf)
    · exact prefix_of_mem_walkAll rest hf
end

theorem isHarmless_concat :
    isHarmless (above ++ [name]) = (isHarmless above && !isSensitive name) := by
  rw [isHarmless, List.all_append, isHarmless, List.all_cons, List.all_nil, Bool.and_true]

/-- Nothing below a sensitive name is found by a scan without them, and nothing that the scan of
everything finds there is harmless. -/
theorem walk_of_sensitive (above : List String) (hname : isSensitive name = true)
    (hslash : '/' ∉ name.toList) (e : Entry) :
    walk tree root ⟨sensitiveRules, layers⟩ (above ++ [name]) e = [] ∧
      (walk tree root ⟨[], layers⟩ (above ++ [name]) e).filter (isHarmless ·.1) = [] := by
  have hadmits (isDirectory : Bool) :
      Context.admits ⟨sensitiveRules, layers⟩ (above ++ [name]) isDirectory = false := by
    rw [admits_sensitive (by simp) hslash, hname]
    rfl
  constructor
  · cases e with
    | file content => rw [walk, hadmits, if_neg Bool.false_ne_true]
    | directory entries => rw [walk, hadmits, if_neg Bool.false_ne_true]
    | link target => rfl
  · rw [List.filter_eq_nil_iff]
    intro f hf hharmless
    obtain ⟨rest, hrest⟩ := prefix_of_mem_walk e hf
    have hin : name ∈ f.1 := by simp [← hrest]
    have hclean := List.all_eq_true.mp hharmless name hin
    rw [hname] at hclean
    cases hclean

theorem admits_of_harmless (hpath : isHarmless (above ++ [name]) = true)
    (hslash : '/' ∉ name.toList) (isDirectory : Bool) :
    Context.admits ⟨sensitiveRules, layers⟩ (above ++ [name]) isDirectory =
      Context.admits ⟨[], layers⟩ (above ++ [name]) isDirectory := by
  rw [isHarmless_concat, Bool.and_eq_true] at hpath
  rw [admits_sensitive (by simp) hslash, hpath.2, Bool.true_and]

mutual
/-- Below an entry with harmless names on its way a scan without sensitive names finds what the
scan of everything finds, less what has a sensitive name further down. -/
theorem walk_sensitive {layers : List Layer} {above : List String} {name : String}
    (hpath : isHarmless (above ++ [name]) = true) (hslash : '/' ∉ name.toList) :
    (e : Entry) → e.isWellNamed = true →
      walk tree root ⟨sensitiveRules, layers⟩ (above ++ [name]) e =
        (walk tree root ⟨[], layers⟩ (above ++ [name]) e).filter (isHarmless ·.1)
  | .link _, _ => rfl
  | .file content, _ => by
    rw [walk, walk, admits_of_harmless hpath hslash]
    split
    · refine (List.filter_eq_self.mpr fun f hf => ?_).symm
      rw [List.mem_singleton.mp hf]
      exact hpath
    · rfl
  | .directory entries, he => by
    rw [walk, walk, admits_of_harmless hpath hslash]
    split
    · exact walkAll_sensitive hpath entries he
    · rfl

theorem walkAll_sensitive {layers : List Layer} {path : List String}
    (hpath : isHarmless path = true) :
    (entries : List (String × Entry)) → Entry.areWellNamed entries = true →
      walkAll tree root ⟨sensitiveRules, layers⟩ path entries =
        (walkAll tree root ⟨[], layers⟩ path entries).filter (isHarmless ·.1)
  | [], _ => rfl
  | (name, e) :: rest, hnames => by
    simp only [Entry.areWellNamed, Bool.and_eq_true, Bool.not_eq_true', ← Bool.not_eq_true,
      List.contains_iff_mem] at hnames
    obtain ⟨⟨⟨hslash, -⟩, he⟩, hrest⟩ := hnames
    rw [walkAll, walkAll, List.filter_append, walkAll_sensitive hpath rest hrest]
    -- Below a sensitive name there is nothing on either side, whatever its ignore files keep.
    cases hname : isSensitive name with
    | true =>
      obtain ⟨hnone, hnone'⟩ := walk_of_sensitive path hname hslash e
      rw [hnone, hnone']
    | false =>
      have hharmless : isHarmless (path ++ [name]) = true := by
        rw [isHarmless_concat, hpath, hname]
        rfl
      rw [walk_sensitive hharmless hslash e he]
end

/-! ## Where a file stands -/

theorem entry?_concat {t : FileTree} {entries : FileTree} {names : List String} (name : String)
    (h : t.entry? names = some (.directory entries)) :
    t.entry? (names ++ [name]) = entries.find? name := by
  induction names generalizing t with
  | nil =>
    cases h
    rfl
  | cons first names ih =>
    cases names with
    | nil =>
      have hbelow : t.below first = entries := by
        rw [FileTree.below, show t.find? first = _ from h]
      rw [← hbelow]
      rfl
    | cons second names => exact ih h

theorem find?_of_areWellNamed {entries : List (String × Entry)} {m : String × Entry}
    (h : Entry.areWellNamed entries = true) (hm : m ∈ entries) :
    FileTree.find? entries m.1 = some m.2 := by
  induction entries with
  | nil => cases hm
  | cons entry rest ih =>
    obtain ⟨name, e⟩ := entry
    simp only [Entry.areWellNamed, Bool.and_eq_true, Bool.not_eq_true', ← Bool.not_eq_true,
      List.contains_iff_mem] at h
    rcases List.mem_cons.mp hm with rfl | hm
    · simp [FileTree.find?]
    · have hne : name ≠ m.1 := fun heq => h.1.1.2 (heq ▸ List.mem_map_of_mem hm)
      rw [← ih h.2 hm, FileTree.find?, List.find?_cons_of_neg (by simpa using hne)]
      rfl

theorem isWellNamed_of_find {entries : FileTree} {e : Entry}
    (h : Entry.areWellNamed entries = true) (he : entries.find? name = some e) :
    e.isWellNamed = true := by
  induction entries with
  | nil => cases he
  | cons entry rest ih =>
    obtain ⟨first, e'⟩ := entry
    simp only [Entry.areWellNamed, Bool.and_eq_true] at h
    by_cases hname : first = name
    · rw [FileTree.find?, List.find?_cons_of_pos (by simpa using hname)] at he
      exact Option.some.inj he ▸ h.1.2
    · rw [FileTree.find?, List.find?_cons_of_neg (by simpa using hname)] at he
      exact ih h.2 he

theorem isWellNamed_of_entry {t : FileTree} {e : Entry} {names : List String}
    (h : Entry.areWellNamed t = true) (he : t.entry? names = some e) : e.isWellNamed = true := by
  induction names generalizing t with
  | nil =>
    cases he
    exact h
  | cons first names ih =>
    cases names with
    | nil => exact isWellNamed_of_find h he
    | cons second names =>
      refine ih ?_ he
      rw [FileTree.below]
      split
      case h_1 entries hfound => exact isWellNamed_of_find h hfound
      case h_2 => rfl

/-- A file that a walk from a directory finds: it stands in the tree, and there is no `.git` on the
way to it. -/
structure Stands (tree : FileTree) (root : List String) (f : List String × Bytes) : Prop where
  entry : tree.entry? (root ++ f.1) = some (.file f.2)
  notGit : ".git" ∉ f.1

theorem notGit_of_admits {c : Context} {isDirectory : Bool} (habove : ".git" ∉ above)
    (h : c.admits (above ++ [name]) isDirectory = true) : ".git" ∉ above ++ [name] := by
  rw [Context.admits, Bool.and_eq_true, decide_eq_true_iff, List.getLast?_concat] at h
  rw [List.mem_append, List.mem_singleton, not_or]
  exact ⟨habove, fun hname => h.1 (congrArg some hname.symm)⟩

mutual
/-- What is found below an entry stands there. -/
theorem stands_of_mem_walk {c : Context} {f : List String × Bytes} {above : List String}
    {name : String} (hgit : ".git" ∉ above) : (e : Entry) → e.isWellNamed = true →
      tree.entry? (root ++ (above ++ [name])) = some e →
      f ∈ walk tree root c (above ++ [name]) e → Stands tree root f
  | .file content, _, hentry, hf => by
    rw [walk] at hf
    split at hf
    case isTrue hadmits =>
      rw [List.mem_singleton.mp hf]
      exact ⟨hentry, notGit_of_admits hgit hadmits⟩
    case isFalse => cases hf
  | .link _, _, _, hf => by cases hf
  | .directory entries, he, hentry, hf => by
    rw [walk] at hf
    split at hf
    case isTrue hadmits =>
      refine stands_of_mem_walkAll (notGit_of_admits hgit hadmits) entries he (fun m hm => ?_) hf
      rw [← List.append_assoc, entry?_concat m.1 hentry, find?_of_areWellNamed he hm]
    case isFalse => cases hf

theorem stands_of_mem_walkAll {c : Context} {f : List String × Bytes} {path : List String}
    (hgit : ".git" ∉ path) : (entries : List (String × Entry)) →
      Entry.areWellNamed entries = true →
      (∀ m ∈ entries, tree.entry? (root ++ (path ++ [m.1])) = some m.2) →
      f ∈ walkAll tree root c path entries → Stands tree root f
  | [], _, _, hf => by cases hf
  | (name, e) :: rest, hnames, hentries, hf => by
    simp only [Entry.areWellNamed, Bool.and_eq_true] at hnames
    rw [walkAll, List.mem_append] at hf
    rcases hf with hf | hf
    · exact stands_of_mem_walk hgit e hnames.1.2 (hentries _ List.mem_cons_self) hf
    · exact stands_of_mem_walkAll hgit rest hnames.2
        (fun m hm => hentries m (List.mem_cons_of_mem _ hm)) hf
end

/-! ## The whole scan -/

/-- The files that count below the directory at a path, with given rules before all others. -/
def visited (tree : FileTree) (root : String) (first : List IgnoreRule) :
    List (List String × Bytes) :=
  match tree.locate FileTree.linkLimit [] (Path.segments root) with
  | none => []
  | some names =>
    match tree.entry? names with
    | some (.directory entries) => walkAll tree names ⟨first, [layerAt tree names 0]⟩ [] entries
    | _ => []

theorem run_eq (tree : FileTree) (root : String) (excludeSensitive : Bool) :
    run tree root excludeSensitive = Ordered.sortBy (fun a b => decide (a.path ≤ b.path))
      ((visited tree root (if excludeSensitive then sensitiveRules else [])).filterMap report) := by
  have hnone : [] = Ordered.sortBy (fun a b : ScannedFile => decide (a.path ≤ b.path))
      (([] : List (List String × Bytes)).filterMap report) := List.mergeSort_nil.symm
  rw [run, visited]
  cases tree.locate FileTree.linkLimit [] (Path.segments root) with
  | none => exact hnone
  | some names =>
    dsimp only
    cases tree.entry? names with
    | none => exact hnone
    | some e =>
      cases e with
      | directory entries => rfl
      | file content => exact hnone
      | link target => exact hnone

theorem visited_sensitive (h : Entry.areWellNamed tree = true) (root : String) :
    visited tree root sensitiveRules = (visited tree root []).filter (isHarmless ·.1) := by
  rw [visited, visited]
  split
  · rfl
  · split
    case h_1 entries hentry =>
      exact walkAll_sensitive rfl entries (isWellNamed_of_entry h hentry)
    case h_2 => rfl

theorem stands_of_mem_visited (h : Entry.areWellNamed tree = true) {root : String}
    {first : List IgnoreRule} {f : List String × Bytes} (hf : f ∈ visited tree root first) :
    ∃ base, tree.locate FileTree.linkLimit [] (Path.segments root) = some base ∧
      Stands tree base f := by
  rw [visited] at hf
  split at hf
  · cases hf
  · next base hbase =>
    split at hf
    case h_1 entries hentry =>
      have hentries : Entry.areWellNamed entries = true := isWellNamed_of_entry h hentry
      refine ⟨base, hbase, stands_of_mem_walkAll List.not_mem_nil entries hentries
        (fun m hm => ?_) hf⟩
      rw [List.nil_append, entry?_concat m.1 hentry, find?_of_areWellNamed hentries hm]
    case h_2 => cases hf

/-- A file as the scan reports it, with the names on the way to it. -/
def reported (f : List String × Bytes) : Option (List String × ScannedFile) :=
  (report f).map (f.1, ·)

theorem filterMap_reported (p : List String → Bool) (files : List (List String × Bytes)) :
    (files.filter (p ·.1)).filterMap reported = (files.filterMap reported).filter (p ·.1) := by
  rw [List.filterMap_filter, List.filter_filterMap]
  refine List.filterMap_congr fun f _ => ?_
  rw [reported]
  cases report f with
  | none => simp
  | some file => simp [Option.filter_some]

/-- A list of files below a directory, in the order of their paths. -/
structure Lists (tree : FileTree) (root : String) (found : List (List String × ScannedFile))
    (files : List ScannedFile) : Prop where
  eq_map : files = found.map (·.2)
  sorted : files.Pairwise (·.path ≤ ·.path)
  /-- Each stands in the tree under its names, and is reported under them. -/
  stands : ∀ f ∈ found, f.2.path = pathText f.1 ∧
    ∃ base, tree.locate FileTree.linkLimit [] (Path.segments root) = some base ∧
      tree.entry? (base ++ f.1) = some (.file f.2.content)
  language : ∀ f ∈ found, Language.detect f.2.path = some f.2.language
  notGit : ∀ f ∈ found, ".git" ∉ f.1

/-- Files in the order of their paths. -/
def byPath (files : List (List String × Bytes)) : List (List String × ScannedFile) :=
  Ordered.sortBy (fun a b => decide (a.2.path ≤ b.2.path)) (files.filterMap reported)

/-- The order of paths does not depend on what else is known of the files. -/
theorem sortBy_report (files : List (List String × Bytes)) :
    Ordered.sortBy (fun a b => decide (a.path ≤ b.path)) (files.filterMap report) =
      (byPath files).map (·.2) := by
  have hreport : files.filterMap report = (files.filterMap reported).map (·.2) := by
    rw [List.map_filterMap]
    refine List.filterMap_congr fun f _ => ?_
    rw [reported, Option.map_map]
    exact Option.map_id'.symm
  rw [hreport, byPath, Ordered.sortBy, Ordered.sortBy]
  refine (List.map_mergeSort (f := Prod.snd) fun a _ b _ => ?_).symm
  rfl

theorem byPath_filter (p : List String → Bool) (files : List (List String × Bytes)) :
    byPath (files.filter (p ·.1)) = (byPath files).filter (p ·.1) := by
  rw [byPath, filterMap_reported]
  refine Ordered.sortBy_filter (fun a b c hab hbc => ?_) (fun a b => ?_) _ _
  · exact decide_eq_true (le_trans (of_decide_eq_true hab) (of_decide_eq_true hbc))
  · rw [Bool.or_eq_true, decide_eq_true_iff, decide_eq_true_iff]
    exact le_total _ _

theorem mem_byPath {f : List String × ScannedFile} {files : List (List String × Bytes)}
    (h : f ∈ byPath files) :
    (f.1, f.2.content) ∈ files ∧ report (f.1, f.2.content) = some f.2 := by
  obtain ⟨v, hv, hreported⟩ := List.mem_filterMap.mp (Ordered.mem_sortBy.mp h)
  obtain ⟨file, hreport, rfl⟩ := Option.map_eq_some_iff.mp hreported
  obtain ⟨language, hlanguage, rfl⟩ := Option.map_eq_some_iff.mp hreport
  exact ⟨hv, hreport⟩

theorem lists_run (h : Entry.areWellNamed tree = true) (root : String) (excludeSensitive : Bool) :
    Lists tree root
      (byPath (visited tree root (if excludeSensitive then sensitiveRules else [])))
      (run tree root excludeSensitive) := by
  constructor
  case eq_map => rw [run_eq, sortBy_report]
  case sorted =>
    rw [run_eq]
    exact Ordered.pairwise_sortBy (r := fun a b : ScannedFile => a.path ≤ b.path)
      (fun _ _ => decide_eq_true_iff) (fun _ _ _ => le_trans) (fun _ _ => le_total _ _) _
  case stands =>
    intro f hf
    obtain ⟨hvisited, hreport⟩ := mem_byPath hf
    obtain ⟨base, hbase, hstands⟩ := stands_of_mem_visited h hvisited
    obtain ⟨language, -, hfile⟩ := Option.map_eq_some_iff.mp hreport
    exact ⟨congrArg ScannedFile.path hfile.symm, base, hbase, hstands.entry⟩
  case language =>
    intro f hf
    obtain ⟨language, hlanguage, hfile⟩ := Option.map_eq_some_iff.mp (mem_byPath hf).2
    rw [← hfile]
    exact hlanguage
  case notGit =>
    intro f hf
    obtain ⟨base, -, hstands⟩ := stands_of_mem_visited h (mem_byPath hf).1
    exact hstands.notGit

/-- No ignore file brings back what has a sensitive name: a scan without sensitive names finds the
files that the scan of everything finds and that have no sensitive name on their way. -/
theorem run_sensitive (h : Entry.areWellNamed tree = true) (root : String) :
    ∃ found, Lists tree root found (run tree root false) ∧
      Lists tree root (found.filter (isHarmless ·.1)) (run tree root true) := by
  refine ⟨_, lists_run h root false, ?_⟩
  have hfiltered := lists_run h root true
  rw [if_pos rfl, visited_sensitive h, byPath_filter] at hfiltered
  exact hfiltered

/-- A tree in which ignore files try to keep what may hold secrets. -/
def sampleKeeping : FileTree :=
  [(".rippleignore", .file (Utf8.encode "!*secret*\n")), ("app.py", .file []),
    ("secrets", .directory [(".gitignore", .file (Utf8.encode "!vault.py\n")),
      ("vault.py", .file [])])]

theorem sample_sensitive :
    Entry.areWellNamed sampleKeeping = true ∧ isHarmless ["app.py"] = true ∧
      isHarmless ["secrets", "vault.py"] = false ∧
      ∃ found, Lists sampleKeeping "." found (run sampleKeeping "." false) ∧
        Lists sampleKeeping "." (found.filter (isHarmless ·.1)) (run sampleKeeping "." true) :=
  ⟨by decide, by decide +kernel, by decide +kernel, run_sensitive (by decide) "."⟩

end Scan

end ChangeImpact
