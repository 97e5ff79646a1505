import ChangeImpact.Proofs.Path.Normal
import Mathlib.Data.List.Nodup

/-!
# What a relative import means

The candidates of an import are its path, the path with an extension and the index files below
it, all different and all in normal form. The import means the known candidate that is tried
first. So another known path can only take its place when it is tried earlier, and of the
importing file only the directory matters.
-/

namespace ChangeImpact.Path

variable {importer source path : String} {known : List String}

/-- The path of a file in a directory whose path is in normal form. -/
def within (directory file : String) : String :=
  if directory = "" then file else directory ++ "/" ++ file

/-- How many candidates are tried before a given one. -/
def rank (importer source path : String) : Nat :=
  (candidates importer source).idxOf path

/-- What the candidates add to the path of an import. -/
def endings (base : String) : List String :=
  "" :: (extensions ++ extensions.map ((if base = "" then "index" else "/index") ++ ·))

/-! ## The candidates -/

/-- An extension has no slash, makes a longer name of any name and an index file of `index`. -/
theorem extension_mem {ext : String} (hext : ext ∈ extensions) :
    '/' ∉ ext.toList ∧ 2 < ext.length ∧ ".." ∉ segments ("index" ++ ext) ∧
      resolved ("index" ++ ext) = ["index" ++ ext] := by
  revert ext
  decide +kernel

theorem join_names_concat (directory file : String) :
    join (names directory ++ [file]) = within directory file := by
  rw [names, within]
  split
  · exact String.intercalate_singleton
  · rw [join, String.intercalate_append_of_ne_nil (segments_ne_nil _) (List.cons_ne_nil _ _),
      String.intercalate_singleton, ← join, join_segments]

/-- An index file lies in the directory. -/
theorem normalize_index {base ext : String} (hbase : IsNormal base) (hext : ext ∈ extensions) :
    normalize (base ++ "/index" ++ ext) = within base ("index" ++ ext) := by
  have hsplit : base ++ "/index" ++ ext = base ++ "/" ++ ("index" ++ ext) := by
    rw [show "/index" = "/" ++ "index" from rfl]
    simp only [String.append_assoc]
  obtain ⟨-, -, hup, hone⟩ := extension_mem hext
  rw [hsplit, normalize, resolved_append_of_notMem base hup, hone, hbase.resolved_eq,
    join_names_concat]

theorem candidates_eq (importer source : String) :
    candidates importer source =
      normalize (parent importer ++ "/" ++ source) ::
        (extensions.map (normalize (parent importer ++ "/" ++ source) ++ ·) ++
          extensions.map fun ext =>
            within (normalize (parent importer ++ "/" ++ source)) ("index" ++ ext)) := by
  have hindex := List.map_congr_left fun (ext : String) (hext : ext ∈ extensions) =>
    normalize_index (isNormal_normalize (parent importer ++ "/" ++ source)) hext
  rw [← hindex]
  rfl

theorem map_endings (base : String) :
    (endings base).map (base ++ ·) =
      base :: (extensions.map (base ++ ·) ++
        extensions.map fun ext => within base ("index" ++ ext)) := by
  have hindex (ext : String) :
      base ++ ((if base = "" then "index" else "/index") ++ ext) = within base ("index" ++ ext) := by
    rw [within]
    split
    · next h => rw [h, String.empty_append]
    · rw [show "/index" = "/" ++ "index" from rfl]
      simp only [String.append_assoc]
  rw [endings, List.map_cons, String.append_empty, List.map_append, List.map_map]
  simp only [Function.comp_def, hindex]

/-- All candidates start with the path of the import. -/
theorem candidates_eq_endings (importer source : String) :
    candidates importer source =
      (endings (normalize (parent importer ++ "/" ++ source))).map
        (normalize (parent importer ++ "/" ++ source) ++ ·) :=
  (candidates_eq importer source).trans (map_endings _).symm

theorem nodup_candidates (importer source : String) : (candidates importer source).Nodup := by
  have hendings (base : String) : (endings base).Nodup := by
    rw [endings]
    split
    · decide +kernel
    · decide +kernel
  rw [candidates_eq_endings]
  exact List.Nodup.map (fun _ _ h => (String.append_right_inj _).mp h) (hendings _)

private theorem isName_of_length (h : 2 < path.length) : IsName path := by
  refine ⟨?_, ?_, ?_⟩ <;>
    · rintro rfl
      revert h
      decide

/-- An extension makes a longer name of the last one. -/
theorem isNormal_append {base ext : String} (hbase : IsNormal base) (hext : ext ∈ extensions) :
    IsNormal (base ++ ext) := by
  obtain ⟨hslash, hlength, -, -⟩ := extension_mem hext
  obtain ⟨init, last, hsegments, happend⟩ := Text.exists_pieces_append base hslash
  have hinit : ∀ segment ∈ init, IsName segment := by
    rcases hbase with rfl | hnames
    · have hlength := congrArg List.length hsegments
      have hnil : init = [] := by simpa [Text.pieces_of_notMem] using hlength
      simp [hnil]
    · exact fun segment hs => hnames segment (by
        rw [segments, hsegments]
        exact List.mem_append_left _ hs)
  refine Or.inr fun segment hsegment => ?_
  rw [segments, happend] at hsegment
  rcases List.mem_append.mp hsegment with hsegment | hsegment
  · exact hinit segment hsegment
  · rw [List.mem_singleton.mp hsegment]
    refine isName_of_length ?_
    rw [String.length_append]
    omega

theorem isNormal_of_mem_candidates (h : path ∈ candidates importer source) : IsNormal path := by
  rcases List.mem_cons.mp h with rfl | h
  · exact isNormal_normalize _
  · rcases List.mem_append.mp h with h | h
    · obtain ⟨ext, hext, rfl⟩ := List.mem_map.mp h
      exact isNormal_append (isNormal_normalize _) hext
    · obtain ⟨ext, -, rfl⟩ := List.mem_map.mp h
      exact isNormal_normalize _

/-! ## The first known candidate -/

/-- What is found is the member with the property that stands first. -/
theorem find?_eq_some_iff_idxOf {α : Type} [DecidableEq α] {p : α → Bool} {xs : List α} {a : α} :
    xs.find? p = some a ↔
      a ∈ xs ∧ p a = true ∧ ∀ b ∈ xs, p b = true → xs.idxOf a ≤ xs.idxOf b := by
  induction xs with
  | nil => simp
  | cons x xs ih =>
    by_cases hx : p x = true
    · rw [List.find?_cons_of_pos hx, Option.some.injEq]
      constructor
      · rintro rfl
        rw [List.idxOf_cons_self]
        exact ⟨List.mem_cons_self .., hx, fun b _ _ => Nat.zero_le _⟩
      · rintro ⟨-, -, hleast⟩
        by_contra hne
        have hzero := hleast x (List.mem_cons_self ..) hx
        rw [List.idxOf_cons_self, List.idxOf_cons_ne _ hne] at hzero
        exact absurd hzero (Nat.not_succ_le_zero _)
    · have hne {b : α} (hb : p b = true) : x ≠ b := fun he => hx (he ▸ hb)
      rw [List.find?_cons_of_neg hx, ih, List.forall_mem_cons]
      constructor
      · rintro ⟨hmem, ha, hleast⟩
        refine ⟨List.mem_cons_of_mem _ hmem, ha, fun h => absurd h hx, fun b hb hpb => ?_⟩
        rw [List.idxOf_cons_ne _ (hne ha), List.idxOf_cons_ne _ (hne hpb)]
        exact Nat.succ_le_succ (hleast b hb hpb)
      · rintro ⟨hmem, ha, -, hleast⟩
        refine ⟨(List.mem_cons.mp hmem).resolve_left (hne ha).symm, ha, fun b hb hpb => ?_⟩
        have hle := hleast b hb hpb
        rw [List.idxOf_cons_ne _ (hne ha), List.idxOf_cons_ne _ (hne hpb)] at hle
        exact Nat.le_of_succ_le_succ hle

theorem isRelativePath_iff :
    Import.isRelativePath source = true ↔
      "./".toList <+: source.toList ∨ "../".toList <+: source.toList := by
  rw [Import.isRelativePath, Bool.or_eq_true, Text.startsWith, Text.startsWith,
    List.isPrefixOf_iff_prefix, List.isPrefixOf_iff_prefix]

/-- A relative import means the known candidate of the least rank. -/
theorem resolve_eq_some_iff :
    resolve importer source known = some path ↔
      Import.isRelativePath source = true ∧ path ∈ candidates importer source ∧ path ∈ known ∧
        ∀ other ∈ candidates importer source, other ∈ known →
          rank importer source path ≤ rank importer source other := by
  rw [resolve]
  split
  · next h =>
    rw [find?_eq_some_iff_idxOf, List.contains_iff_mem]
    simp only [List.contains_iff_mem, h, true_and, rank]
  · next h => exact iff_of_false (fun hnone => nomatch hnone) fun hr => h hr.1

/-- An import means nothing when no candidate is known. -/
theorem resolve_eq_none_iff (h : Import.isRelativePath source = true) :
    resolve importer source known = none ↔ ∀ c ∈ candidates importer source, c ∉ known := by
  rw [resolve, if_pos h, List.find?_eq_none]
  simp only [List.contains_iff_mem]

/-- One more known path takes the place of what an import means when it has a lesser rank. -/
theorem resolve_cons (importer source path : String) (known : List String) :
    resolve importer source (path :: known) = resolve importer source known ∨
      resolve importer source (path :: known) = some path ∧
        ∀ old, resolve importer source known = some old →
          rank importer source path < rank importer source old := by
  cases hnew : resolve importer source (path :: known) with
  | none =>
    left
    cases hold : resolve importer source known with
    | none => rfl
    | some old =>
      obtain ⟨hrel, hcandidate, hknown, -⟩ := resolve_eq_some_iff.mp hold
      exact absurd (List.mem_cons_of_mem _ hknown)
        ((resolve_eq_none_iff hrel).mp hnew old hcandidate)
  | some new =>
    obtain ⟨hrel, hcandidate, hknown, hleast⟩ := resolve_eq_some_iff.mp hnew
    by_cases hmem : new ∈ known
    · left
      symm
      exact resolve_eq_some_iff.mpr ⟨hrel, hcandidate, hmem, fun other ho hk =>
        hleast other ho (List.mem_cons_of_mem _ hk)⟩
    · right
      have hpath : new = path := (List.mem_cons.mp hknown).resolve_right hmem
      subst hpath
      refine ⟨rfl, fun old hold => ?_⟩
      obtain ⟨-, hold, holdKnown, -⟩ := resolve_eq_some_iff.mp hold
      have hne : rank importer source new ≠ rank importer source old := fun he =>
        hmem ((List.idxOf_inj hcandidate).mp he ▸ holdKnown)
      exact Nat.lt_of_le_of_ne (hleast old hold (List.mem_cons_of_mem _ holdKnown)) hne

/-- Of the importing file only the normal form of its directory matters. -/
theorem resolve_congr_directory {importer' : String}
    (h : normalize (parent importer') = normalize (parent importer)) (source : String)
    (known : List String) :
    resolve importer' source known = resolve importer source known := by
  rw [resolve, resolve, candidates, candidates, normalize_append_congr h]

/-- How a relative import is resolved. -/
structure ResolvesByRank (importer source : String) (known : List String) : Prop where
  /-- The candidates are the path of the import, that path with each extension, and the index
  file of each extension below it. -/
  candidates_eq : candidates importer source =
    let base := normalize (parent importer ++ "/" ++ source)
    base :: (extensions.map (base ++ ·) ++ extensions.map fun ext => within base ("index" ++ ext))
  /-- There are twenty-three of them. -/
  count : (candidates importer source).length = 23
  /-- They are all different. -/
  distinct : (candidates importer source).Nodup
  /-- A relative import means the known candidate of the least rank, any other nothing. -/
  least : ∀ path, resolve importer source known = some path ↔
    ("./".toList <+: source.toList ∨ "../".toList <+: source.toList) ∧
      path ∈ candidates importer source ∧ path ∈ known ∧
      ∀ other ∈ candidates importer source, other ∈ known →
        rank importer source path ≤ rank importer source other
  /-- What it means has names only between its slashes, if it is not empty. -/
  normal : ∀ path, resolve importer source known = some path → IsNormal path
  /-- Looked up in any directory it leads to a place below that directory. -/
  inside : ∀ path, resolve importer source known = some path →
    ∀ root, resolved root <+: resolved (root ++ "/" ++ path)
  /-- Of the importing file only the directory matters. -/
  directory : ∀ importer', normalize (parent importer') = normalize (parent importer) →
    resolve importer' source known = resolve importer source known
  /-- One more known path changes nothing or comes in for a path of a greater rank. -/
  added : ∀ path, resolve importer source (path :: known) = resolve importer source known ∨
    resolve importer source (path :: known) = some path ∧
      ∀ old, resolve importer source known = some old →
        rank importer source path < rank importer source old

/-- Every import is resolved to the known candidate that is tried first. -/
theorem resolve_byRank (importer source : String) (known : List String) :
    ResolvesByRank importer source known where
  candidates_eq := candidates_eq importer source
  count := by
    rw [candidates_eq]
    rfl
  distinct := nodup_candidates importer source
  least := fun path => by rw [resolve_eq_some_iff, isRelativePath_iff]
  normal := fun path h => isNormal_of_mem_candidates (resolve_eq_some_iff.mp h).2.1
  inside := fun path h root => by
    have hnormal := isNormal_of_mem_candidates (resolve_eq_some_iff.mp h).2.1
    rw [resolved_append_of_notMem root hnormal.parent_notMem]
    exact List.prefix_append _ _
  directory := fun importer' h => resolve_congr_directory h source known
  added := fun path => resolve_cons importer source path known

/-- A file with a later extension gives way to one with an earlier extension, but not to an index
file. -/
theorem sample_resolve_byRank :
    let known := ["src/util.php", "src/util/index.ts"]
    resolve "src/app.ts" "./util" known = some "src/util.php" ∧
      resolve "src/app.ts" "./util" ("src/util.tsx" :: known) = some "src/util.tsx" ∧
      rank "src/app.ts" "./util" "src/util.tsx" < rank "src/app.ts" "./util" "src/util.php" ∧
      resolve "src//view.ts" "./util" known = resolve "src/app.ts" "./util" known := by
  intro known
  have h := resolve_byRank "src/app.ts" "./util" known
  have hold : resolve "src/app.ts" "./util" known = some "src/util.php" := by decide +kernel
  have hnew : resolve "src/app.ts" "./util" ("src/util.tsx" :: known) = some "src/util.tsx" := by
    decide +kernel
  refine ⟨hold, hnew, ?_, h.directory "src//view.ts" (by decide +kernel)⟩
  rcases h.added "src/util.tsx" with hsame | ⟨-, hless⟩
  · rw [hold, hnew] at hsame
    exact absurd hsame (by decide)
  · exact hless _ hold

end ChangeImpact.Path
