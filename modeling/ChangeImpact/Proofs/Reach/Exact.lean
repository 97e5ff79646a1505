import ChangeImpact.Proofs.Propagation
import Mathlib.Data.List.Find

/-!
# Where a change is seen

For each component that a change reaches the analysis says which of its files are affected, in
which lines, and by which of the changed names. Each of these lists is determined by the imports
of the files that match the change: an import that means a file of the changed component and
either takes a changed name or depends on the whole of a file whose content changed. A file
refers to what changed in the lines of its matching imports and in the calls of what these bind.
-/

namespace ChangeImpact

open Ordered (Enumerates enumerates_ofList enumerates_nil)

/-! ## What an import takes -/

/-- A name that an import uses of a file: one that it binds or, for a default import, the default
export of the file. -/
def Import.Uses (i : Import) (target : ParsedFile) (name : String) : Prop :=
  name ∈ i.symbols ∨
    (i.isDefault = true ∧ ∃ e ∈ target.exports, e.kind = .default ∧ e.name = name)

/-- A changed name that matters to an import: every one if it binds everything, otherwise one
that it uses. -/
def Import.Takes (i : Import) (target : ParsedFile) (changed : List String) (name : String) :
    Prop :=
  name ∈ changed ∧ (i.bindsEverything = true ∨ i.Uses target name)

section Import

variable {i : Import} {target : ParsedFile} {changed : List String} {contentChanged : Bool}
  {name : String}

theorem Import.uses_iff :
    i.Uses target name ↔ name ∈ i.symbols ∨ name ∈ confirmedSymbols i target := by
  rw [Uses, mem_confirmedSymbols]
  constructor
  · exact Or.imp_right Or.inl
  · rintro (hbound | hdefault | ⟨hbound, -⟩)
    · exact Or.inl hbound
    · exact Or.inr hdefault
    · exact Or.inl hbound

/-- A change touches an import that takes a changed name, and one that binds everything when
content changed. -/
theorem Import.touchedBy_iff :
    i.TouchedBy target (· ∈ changed) (contentChanged = true) ↔
      (∃ name, i.Takes target changed name) ∨
        (i.bindsEverything = true ∧ contentChanged = true) := by
  simp only [TouchedBy, Takes, uses_iff]
  cases i.bindsEverything with
  | true => simp
  | false => simp

theorem mem_of_usedSymbols {symbols : List String}
    (h : usedSymbols i target changed contentChanged = some symbols) :
    name ∈ symbols ↔ i.Takes target changed name := by
  rw [usedSymbols] at h
  rw [Import.Takes, Import.uses_iff]
  cases hb : i.bindsEverything with
  | true =>
    rw [hb, if_pos rfl] at h
    split at h
    · cases h
    · cases h
      simp
  | false =>
    rw [hb, if_neg Bool.false_ne_true] at h
    dsimp only at h
    split at h
    · cases h
    · cases h
      rw [List.mem_filter, Ordered.mem_union, List.contains_iff_mem, and_comm]
      simp

/-- What a matching import contributes. -/
theorem matchImport_contributes {m : ImportMatch}
    (h : matchImport i target changed contentChanged = some m) :
    (∀ name, name ∈ m.symbols ↔ i.Takes target changed name) ∧
    (∀ name, name ∈ m.localNames ↔ i.Takes target changed name ∨
      ((i.isDefault = true ∨ i.isWildcard = true) ∧ name ∈ i.symbols)) ∧
    m.line = i.line := by
  obtain ⟨symbols, hused, rfl⟩ := Option.map_eq_some_iff.mp h
  refine ⟨fun name => mem_of_usedSymbols hused, fun name => ?_, rfl⟩
  rw [← mem_of_usedSymbols hused, ← Bool.or_eq_true]
  dsimp only
  split
  · next hbinds => rw [Ordered.mem_union, or_comm, and_iff_right hbinds]
  · next hbinds => rw [or_iff_left fun hname => hbinds hname.1]

end Import

/-! ## What a file refers to -/

/-- A call names what it calls in one of the non-empty parts of its callee. -/
def Call.Mentions (c : Call) (name : String) : Prop :=
  name ≠ "" ∧ name.toList ∈ Text.splitBy (fun x => x = '.' ∨ x = ':') c.callee.toList

theorem calleeRefers_iff {c : Call} {names : List String} :
    calleeRefers c.callee names = true ↔ ∃ name ∈ names, c.Mentions name := by
  simp only [calleeRefers, List.any_eq_true, List.mem_filter, Bool.not_eq_true',
    List.isEmpty_eq_false_iff, List.contains_iff_mem, Call.Mentions]
  constructor
  · rintro ⟨part, ⟨hpart, hne⟩, hname⟩
    refine ⟨String.ofList part, hname, ?_, by rwa [String.toList_ofList]⟩
    rw [← String.toList_inj.ne, String.toList_ofList]
    exact hne
  · rintro ⟨name, hname, hne, hpart⟩
    refine ⟨name.toList, ⟨hpart, ?_⟩, by rwa [String.ofList_toList]⟩
    rw [← String.toList_inj.ne] at hne
    exact hne

/-- A change of a component: of the names that it exports, and possibly of the content of its
files. -/
structure Change where
  /-- The component. -/
  component : String
  /-- The names whose exports changed. -/
  names : List String
  /-- Whether the content of a file changed. -/
  content : Bool

namespace Change

/-- An import of a file matches the change: it means a file of the changed component, and takes
a changed name or binds everything of a changed content. -/
structure Matches (c : Change) (index : ExportIndex) (f : IndexedFile) (i : Import)
    (g : IndexedFile) : Prop where
  mem : i ∈ f.parsed.imports
  relative : i.isRelative = true
  target : index.target? f.path i = some g
  owner : g.component = some c.component
  touched : (∃ name, i.Takes g.parsed c.names name) ∨
    (i.bindsEverything = true ∧ c.content = true)

variable (c : Change) (index : ExportIndex) (f : IndexedFile)

/-- A file has a matching import. -/
def Affects : Prop := ∃ i g, c.Matches index f i g

/-- A matching import of a file takes a name. -/
def Takes (name : String) : Prop :=
  ∃ i g, c.Matches index f i g ∧ i.Takes g.parsed c.names name

/-- A file knows what changed under a name: one that a matching import takes, or one that a
matching default or wildcard import binds. -/
def Knows (name : String) : Prop :=
  ∃ i g, c.Matches index f i g ∧ (i.Takes g.parsed c.names name ∨
    ((i.isDefault = true ∨ i.isWildcard = true) ∧ name ∈ i.symbols))

/-- A file refers to what changed in a line: that of a matching import, or of a call that
mentions a name under which the file knows it. -/
def RefersAt (line : Nat) : Prop :=
  0 < line ∧ ((∃ i g, c.Matches index f i g ∧ i.line = line) ∨
    ∃ call ∈ f.parsed.calls, call.line = line ∧ ∃ name, c.Knows index f name ∧ call.Mentions name)

/-- The matches that the analysis finds in a file. -/
def found : List ImportMatch := matchesOf index c.component c.names c.content f

variable {c index f}

theorem RefersAt.affects {line : Nat} (h : c.RefersAt index f line) : c.Affects index f := by
  obtain ⟨-, ⟨i, g, hm, -⟩ | ⟨-, -, -, -, ⟨i, g, hm, -⟩, -⟩⟩ := h
  · exact ⟨i, g, hm⟩
  · exact ⟨i, g, hm⟩

theorem mem_found {m : ImportMatch} :
    m ∈ c.found index f ↔ ∃ i g, c.Matches index f i g ∧
      matchImport i g.parsed c.names c.content = some m := by
  rw [found, matchesOf, List.mem_filterMap]
  constructor
  · rintro ⟨i, hi, hm⟩
    split_ifs at hm with hrel
    split at hm
    · next g hg =>
      split_ifs at hm with howner
      refine ⟨i, g, ⟨hi, hrel, hg, howner, ?_⟩, hm⟩
      rw [← Import.touchedBy_iff, ← usedSymbols_isSome_iff]
      exact Option.isSome_iff_exists.mpr ((Option.map_eq_some_iff.mp hm).imp fun _ h => h.1)
    · cases hm
  · rintro ⟨i, g, h, hm⟩
    refine ⟨i, h.mem, ?_⟩
    rw [if_pos h.relative]
    simp only [h.target, h.owner, if_true]
    exact hm

/-- Every matching import is found. -/
theorem Matches.exists_found {i : Import} {g : IndexedFile} (h : c.Matches index f i g) :
    ∃ m ∈ c.found index f, matchImport i g.parsed c.names c.content = some m := by
  have hused : (usedSymbols i g.parsed c.names c.content).isSome = true :=
    usedSymbols_isSome_iff.mpr (Import.touchedBy_iff.mpr h.touched)
  rw [← Option.isSome_map, ← matchImport] at hused
  obtain ⟨m, hm⟩ := Option.isSome_iff_exists.mp hused
  exact ⟨m, mem_found.mpr ⟨i, g, h, hm⟩, hm⟩

theorem found_ne_nil_iff : c.found index f ≠ [] ↔ c.Affects index f := by
  constructor
  · intro hne
    obtain ⟨m, hm⟩ := List.exists_mem_of_ne_nil _ hne
    obtain ⟨i, g, h, -⟩ := mem_found.mp hm
    exact ⟨i, g, h⟩
  · rintro ⟨i, g, h⟩
    obtain ⟨m, hm, -⟩ := h.exists_found
    exact List.ne_nil_of_mem hm

/-- What is collected from the matches of a file is what its matching imports contribute. -/
private theorem exists_found_iff {p : ImportMatch → Prop} {q : Import → IndexedFile → Prop}
    (h : ∀ i g m, matchImport i g.parsed c.names c.content = some m → (p m ↔ q i g)) :
    (∃ m ∈ c.found index f, p m) ↔ ∃ i g, c.Matches index f i g ∧ q i g := by
  constructor
  · rintro ⟨m, hm, hp⟩
    obtain ⟨i, g, hmatch, hm⟩ := mem_found.mp hm
    exact ⟨i, g, hmatch, (h i g m hm).mp hp⟩
  · rintro ⟨i, g, hmatch, hq⟩
    obtain ⟨m, hm, himport⟩ := hmatch.exists_found
    exact ⟨m, hm, (h i g m himport).mpr hq⟩

theorem mem_symbols_found {name : String} :
    name ∈ (c.found index f).flatMap (·.symbols) ↔ c.Takes index f name := by
  rw [List.mem_flatMap]
  exact exists_found_iff fun _ _ _ hm => (matchImport_contributes hm).1 name

theorem mem_localNames_found {name : String} :
    name ∈ (c.found index f).flatMap (·.localNames) ↔ c.Knows index f name := by
  rw [List.mem_flatMap]
  exact exists_found_iff fun _ _ _ hm => (matchImport_contributes hm).2.1 name

theorem mem_lines_found {line : Nat} :
    line ∈ (c.found index f).map (·.line) ↔ ∃ i g, c.Matches index f i g ∧ i.line = line := by
  rw [List.mem_map]
  exact exists_found_iff fun _ _ _ hm => by rw [(matchImport_contributes hm).2.2]

/-- The analysis lists the lines in which a file refers to what changed. -/
theorem enumerates_referringLines :
    Enumerates (referringLines (c.found index f) f) (c.RefersAt index f) := by
  rw [referringLines]
  refine (enumerates_ofList _).filter.congr fun line => ?_
  rw [decide_eq_true_eq, RefersAt, List.mem_append, mem_lines_found, List.mem_map]
  refine and_congr_right fun _ => or_congr_right (exists_congr fun call => ?_)
  simp only [List.mem_filter, calleeRefers_iff, Ordered.mem_ofList, mem_localNames_found,
    and_assoc]
  exact and_congr_right fun _ => and_comm

end Change

/-! ## What is said about a component -/

/-- The lines in which a file is affected. -/
def AffectedComponent.linesAt (a : AffectedComponent) (path : String) : List Nat :=
  (Ordered.find? path a.affectedLines).getD []

theorem AffectedComponent.linesAt_of_notMem {a : AffectedComponent} {path : String}
    (h : path ∉ a.files) : a.linesAt path = [] := by
  rw [linesAt, Ordered.find?, List.find?_eq_none.mpr]
  · rfl
  · intro e he hpath
    exact h (of_decide_eq_true hpath ▸ List.mem_map_of_mem he)

namespace Change

/-- What is said about a component is exact as far as the given files go: it names the changed
names that matching imports of its files take, its files that have such an import, and for each
of its files the lines in which the file refers to what changed. -/
structure Describes (c : Change) (index : ExportIndex) (files : List IndexedFile) (owner : String)
    (a : AffectedComponent) : Prop where
  component : a.component = owner
  symbols : Enumerates a.matchedSymbols fun name =>
    ∃ f ∈ files, f.component = some owner ∧ c.Takes index f name
  paths : Enumerates a.files fun path =>
    ∃ f ∈ files, f.component = some owner ∧ c.Affects index f ∧ f.path = path
  lines : ∀ f ∈ files, f.component = some owner →
    Enumerates (a.linesAt f.path) (c.RefersAt index f)

variable {c : Change} {index : ExportIndex} {files : List IndexedFile} {f : IndexedFile}
  {owner : String} {a : AffectedComponent}

/-- Nothing is to be said where no file is affected. -/
theorem describes_empty
    (h : ∀ f ∈ files, f.component = some owner → ¬c.Affects index f) :
    c.Describes index files owner { component := owner } where
  component := rfl
  symbols := enumerates_nil fun _ ⟨f, hf, howner, i, g, hm, _⟩ => h f hf howner ⟨i, g, hm⟩
  paths := enumerates_nil fun _ ⟨f, hf, howner, haffects, _⟩ => h f hf howner haffects
  lines f hf howner := enumerates_nil fun _ hline => h f hf howner hline.affects

/-- A file that is not affected or of another component adds nothing. -/
theorem Describes.skip (h : c.Describes index files owner a) (hpath : f.path ∉ files.map (·.path))
    (hskip : f.component = some owner → ¬c.Affects index f) :
    c.Describes index (files ++ [f]) owner a := by
  have hmore {p : IndexedFile → Prop} (hp : ∀ g, p g → c.Affects index g) :
      (∃ g ∈ files, g.component = some owner ∧ p g) ↔
        ∃ g ∈ files ++ [f], g.component = some owner ∧ p g := by
    simp only [List.mem_append, List.mem_singleton, or_and_right, exists_or, exists_eq_left]
    exact (or_iff_left fun hf => hskip hf.1 (hp f hf.2)).symm
  refine ⟨h.component, h.symbols.congr fun name => hmore fun g ⟨i, g', hm, _⟩ => ⟨i, g', hm⟩,
    h.paths.congr fun path => hmore fun g hg => hg.1, fun g hg howner => ?_⟩
  rcases List.mem_append.mp hg with hg | hg
  · exact h.lines g hg howner
  · obtain rfl := List.mem_singleton.mp hg
    have hnone : g.path ∉ a.files := fun hmem => by
      obtain ⟨g', hg', -, -, hsame⟩ := (h.paths.mem_iff g.path).mp hmem
      exact hpath (hsame ▸ List.mem_map_of_mem hg')
    rw [AffectedComponent.linesAt_of_notMem hnone]
    exact enumerates_nil fun line hline => hskip howner hline.affects

/-- An affected file adds the names that its matching imports take, its path and its lines. -/
theorem Describes.add (h : c.Describes index files owner a) (hpath : f.path ∉ files.map (·.path))
    (howner : f.component = some owner) (haffects : c.Affects index f) :
    c.Describes index (files ++ [f]) owner
      { a with
        matchedSymbols := Ordered.union ((c.found index f).flatMap (·.symbols)) a.matchedSymbols
        affectedLines :=
          Ordered.upsert f.path (referringLines (c.found index f) f) a.affectedLines } := by
  have hmore (p : IndexedFile → Prop) :
      (∃ g ∈ files ++ [f], g.component = some owner ∧ p g) ↔
        p f ∨ ∃ g ∈ files, g.component = some owner ∧ p g := by
    simp only [List.mem_append, List.mem_singleton, or_and_right, exists_or, exists_eq_left,
      howner, true_and]
    exact or_comm
  refine ⟨h.component, ⟨Ordered.pairwise_union h.symbols.ascends, fun name => ?_⟩,
    ⟨Ordered.pairwise_keys_alter h.paths.ascends, fun path => ?_⟩, fun g hg hg' => ?_⟩
  · rw [Ordered.mem_union, mem_symbols_found, h.symbols.mem_iff, hmore]
  · rw [hmore]
    refine Ordered.mem_keys_alter.trans (or_congr ?_ (h.paths.mem_iff path))
    rw [and_iff_right haffects, eq_comm]
  · rw [AffectedComponent.linesAt, Ordered.find?_upsert]
    rcases List.mem_append.mp hg with hg | hg
    · rw [if_neg fun hsame : g.path = f.path => hpath (hsame ▸ List.mem_map_of_mem hg)]
      exact h.lines g hg hg'
    · obtain rfl := List.mem_singleton.mp hg
      rw [if_pos rfl]
      exact enumerates_referringLines

/-- Going through the files describes every candidate as far as the files go. -/
theorem describes_foldl {candidates : List String} (hcandidate : owner ∈ candidates)
    (hpaths : (files.map (·.path)).Nodup) :
    c.Describes index files owner ((Ordered.find? owner
      (files.foldl (reachFile index c.component c.names c.content candidates) [])).getD
        { component := owner }) := by
  induction files using List.reverseRecOn with
  | nil => exact describes_empty fun _ hf => absurd hf List.not_mem_nil
  | append_singleton files f ih =>
    rw [List.map_append, List.nodup_append] at hpaths
    have hpath : f.path ∉ files.map (·.path) := fun hmem =>
      hpaths.2.2 _ hmem _ (List.mem_singleton_self _) rfl
    have hfiles := ih hpaths.1
    have hkeys : ((files.foldl (reachFile index c.component c.names c.content candidates) []).map
        (·.1)).Pairwise (· < ·) := (filed_foldl_reachFile filed_nil).1
    rw [List.foldl_append, List.foldl_cons, List.foldl_nil, reachFile, ← found]
    cases hcomponent : f.component with
    | none => exact hfiles.skip hpath fun howner => by rw [hcomponent] at howner; cases howner
    | some first =>
      dsimp only
      by_cases hskip : (!candidates.contains first || (c.found index f).isEmpty) = true
      · rw [if_pos hskip]
        refine hfiles.skip hpath fun howner haffects => ?_
        obtain rfl := Option.some.inj (hcomponent.symm.trans howner)
        simp [hcandidate, found_ne_nil_iff.mpr haffects] at hskip
      · rw [if_neg hskip, Ordered.find?_alter hkeys]
        by_cases hfirst : owner = first
        · subst hfirst
          rw [if_pos rfl]
          refine hfiles.add hpath hcomponent (found_ne_nil_iff.mp fun hnil => hskip ?_)
          rw [hnil, List.isEmpty_nil, Bool.or_true]
        · rw [if_neg hfirst]
          exact hfiles.skip hpath fun howner =>
            absurd (Option.some.inj (howner.symm.trans hcomponent)) hfirst

end Change

/-! ## What the analysis says -/

/-- What is said about a component in a list, nothing if it is not there. -/
def entryOf (reached : List AffectedComponent) (owner : String) : AffectedComponent :=
  (reached.find? (·.component = owner)).getD { component := owner }

/-- A component that is listed once is found. -/
theorem entryOf_of_mem {reached : List AffectedComponent} {a : AffectedComponent}
    (h : (reached.map (·.component)).Nodup) (ha : a ∈ reached) :
    entryOf reached a.component = a := by
  have hsome : (reached.find? (·.component = a.component)).isSome = true :=
    List.find?_isSome.mpr ⟨a, ha, decide_eq_true rfl⟩
  obtain ⟨b, hb⟩ := Option.isSome_iff_exists.mp hsome
  have hid : b.component = a.component := by simpa using List.find?_some hb
  rw [entryOf, hb, Option.getD_some]
  exact List.inj_on_of_nodup_map h (List.mem_of_find?_eq_some hb) ha hid

theorem entryOf_filed {reached : List (String × AffectedComponent)} (h : Filed reached)
    (owner : String) :
    entryOf (reached.map (·.2)) owner =
      (Ordered.find? owner reached).getD { component := owner } := by
  rw [entryOf, List.find?_map, Ordered.find?]
  have hsame : reached.find? ((fun a => decide (a.component = owner)) ∘ fun e => e.2) =
      reached.find? (·.1 = owner) :=
    List.find?_congr fun e he => by rw [Function.comp_apply, h.2 e he]
  rw [hsame]

namespace Change

variable {c : Change} {edges : List DependencyEdge} {owner : String}

/-- The components that a change reaches. -/
def reached (c : Change) (edges : List DependencyEdge) (index : ExportIndex) :
    List AffectedComponent :=
  affectedComponents c.component c.names c.content edges index

/-- What the analysis says about a candidate, be it something or nothing, is exact. -/
theorem describes_entryOf (files : List IndexedFile)
    (howner : owner ∈ candidateSources c.component edges) :
    c.Describes (ExportIndex.build files) (ExportIndex.build files).toList owner
      (entryOf (c.reached edges (ExportIndex.build files)) owner) := by
  by_cases hnothing : c.names.isEmpty = true ∧ (!c.content) = true
  · rw [reached, affectedComponents, if_pos hnothing]
    rw [List.isEmpty_iff, Bool.not_eq_true'] at hnothing
    refine describes_empty ?_
    rintro f - - ⟨i, g, hm⟩
    obtain ⟨name, hname, -⟩ | ⟨-, hcontent⟩ := hm.touched
    · rw [hnothing.1] at hname
      cases hname
    · rw [hnothing.2] at hcontent
      cases hcontent
  · rw [reached, affectedComponents, if_neg hnothing]
    dsimp only
    rw [entryOf_filed (filed_foldl_reachFile filed_nil)]
    refine describes_foldl howner ?_
    rw [ExportIndex.map_path_toList_build]
    exact (ExportIndex.pairwise_keys_build files).imp fun hxy => ne_of_irrefl hxy

/-- The reached components are those that have an edge into the changed component and own an
affected file. -/
theorem enumerates_reached (c : Change) (edges : List DependencyEdge) (index : ExportIndex) :
    Enumerates ((c.reached edges index).map (·.component)) fun owner =>
      (owner ≠ c.component ∧ ∃ e ∈ edges, e.source = owner ∧ e.target = c.component) ∧
        ∃ f ∈ index.toList, f.component = some owner ∧ c.Affects index f := by
  refine ⟨pairwise_reachedBy, fun owner => mem_reachedBy.trans (and_congr_right fun _ => ?_)⟩
  refine exists_congr fun f => and_congr_right fun _ => and_congr_right fun _ => ?_
  simp only [Import.touchedBy_iff]
  constructor
  · rintro ⟨i, hi, hrel, g, hg, howner, htouched⟩
    exact ⟨i, g, hi, hrel, hg, howner, htouched⟩
  · rintro ⟨i, g, h⟩
    exact ⟨i, h.mem, h.relative, g, h.target, h.owner, h.touched⟩

theorem mem_candidateSources_of_mem {index : ExportIndex} {a : AffectedComponent}
    (ha : a ∈ c.reached edges index) : a.component ∈ candidateSources c.component edges :=
  mem_candidateSources.mpr
    (((c.enumerates_reached edges index).mem_iff _).mp (List.mem_map_of_mem ha)).1

end Change

/-- The analysis lists exactly the components with an edge into the changed component, itself
left out, that own a file with a matching import, and says of each exactly which changed names
its files take, which of them are affected and in which lines. -/
theorem affectedComponents_exact (files : List IndexedFile) (c : Change)
    (edges : List DependencyEdge) :
    let index := ExportIndex.build files
    let reached := affectedComponents c.component c.names c.content edges index
    Enumerates (reached.map (·.component)) (fun owner =>
      (owner ≠ c.component ∧ ∃ e ∈ edges, e.source = owner ∧ e.target = c.component) ∧
        ∃ f ∈ index.toList, f.component = some owner ∧ c.Affects index f) ∧
    ∀ a ∈ reached, c.Describes index index.toList a.component a := by
  intro index reached
  refine ⟨c.enumerates_reached edges index, fun a ha => ?_⟩
  have hentry : entryOf reached a.component = a := entryOf_of_mem nodup_reachedBy ha
  have hdescribes := c.describes_entryOf files (Change.mem_candidateSources_of_mem ha)
  rwa [Change.reached, hentry] at hdescribes

/-! ## Two files of one component -/

/-- The core offers its totals. A list takes the whole of it, and a cart one name; the cart calls
what only the list takes, and has a callee with an empty part. -/
def sampleCalling : List IndexedFile :=
  [{ component := some "core"
     parsed := { path := "core/price.ts", language := "typescript"
                 exports := [{ name := "total", kind := .function },
                   { name := "Rate", kind := .default }] } },
   { component := some "ui"
     parsed := { path := "ui/cart.ts", language := "typescript"
                 imports := [{ source := "../core/price", symbols := ["total", ""], line := 1 }]
                 calls := [{ callee := "shop.total", line := 4 }, { callee := "a::b", line := 5 },
                   { callee := "Rate", line := 6 }] } },
   { component := some "ui"
     parsed := { path := "ui/list.ts", language := "typescript"
                 imports := [{ source := "../core/price", symbols := ["prices"], isWildcard := true
                               line := 2 }]
                 calls := [{ callee := "prices.sum", line := 3 }] } }]

/-- A change of a name and of the default export is seen in both files. -/
theorem sample_affected_exact :
    let index := ExportIndex.build sampleCalling
    let edges := (DependencyGraph.build sampleCalling).edges
    let c : Change := { component := "core", names := ["Rate", "total"], content := false }
    let a : AffectedComponent :=
      { component := "ui", matchedSymbols := ["Rate", "total"]
        affectedLines := [("ui/cart.ts", [1, 4]), ("ui/list.ts", [2, 3])] }
    a ∈ affectedComponents c.component c.names c.content edges index ∧
      c.Describes index index.toList "ui" a := by
  intro index edges c a
  have ha : a ∈ affectedComponents c.component c.names c.content edges index := by decide +kernel
  exact ⟨ha, (affectedComponents_exact sampleCalling c edges).2 a ha⟩

/-- When nothing changed, not even an import of everything is reached. An empty part of a callee
is not looked at, and neither are the names that another file of the component takes. -/
theorem sample_affected_less :
    let index := ExportIndex.build sampleCalling
    let edges := (DependencyGraph.build sampleCalling).edges
    (edges.any (fun e => e.source = "ui" ∧ e.target = "core") = true ∧
      (∃ f ∈ index.toList, f.component = some "ui" ∧ ∃ i ∈ f.parsed.imports,
        i.isRelative = true ∧ i.bindsEverything = true ∧
          (index.target? f.path i).map (·.component) = some (some "core")) ∧
      affectedComponents "core" [] false edges index = []) ∧
    (affectedComponents "core" ["", "Rate"] false edges index =
      [{ component := "ui", matchedSymbols := ["", "Rate"]
         affectedLines := [("ui/cart.ts", [1]), ("ui/list.ts", [2, 3])] }] ∧
      ∃ f ∈ index.toList, f.path = "ui/cart.ts" ∧
        ∃ call ∈ f.parsed.calls, call.line = 5 ∧
          "".toList ∈ Text.splitBy (fun x => x = '.' ∨ x = ':') call.callee.toList) := by
  decide +kernel

end ChangeImpact
