import ChangeImpact.Extraction.Rust
import ChangeImpact.Proofs.Ordered
import ChangeImpact.Proofs.Syntax.Preorder

/-!
# What use trees bring into scope

A `use` tree is read in its forms, and what it brings into scope is told form by form: a name
below a path, or the whole of a path. The imports of the declaration say the same, one of them for
each path, whatever lists are nested in which.
-/

namespace ChangeImpact.Rust

open Syntax

/-! ## Use trees -/

/-- A `use` tree in the forms of the language. Paths are taken as they are written. -/
inductive UseTree where
  /-- `path::name`; the path of `::name` is empty. -/
  | named (path name : String)
  /-- `original as newName`. -/
  | renamed (original : UseTree) (newName : String)
  /-- `path::*`, or `*` with no path of its own. -/
  | glob (path : Option String)
  /-- `path::{items}`, or `{items}` with no path of its own. -/
  | list (path : Option String) (items : List UseTree)
  /-- An identifier, `self`, `crate` or `super`. -/
  | word (text : String)

namespace UseTree

/-- The path of some parts, the outermost first. -/
def written (parts : List String) : String := "::".intercalate parts

mutual
/-- What a tree brings into scope below some parts of a path, in source order. A word with
nothing in front stands for the whole of what it names, and so does `self` for what is in front
of it. -/
def leaves (parts : List String) : UseTree → List UseLeaf
  | .named path name => [⟨written (parts ++ [path]), some name⟩]
  | .renamed original _ => leaves parts original
  | .glob path => [⟨written (parts ++ path.toList), none⟩]
  | .list path items => leavesAll (parts ++ path.toList) items
  | .word text =>
    if parts = [] then [⟨text, none⟩]
    else if text = "self" then [⟨written parts, none⟩]
    else [⟨written parts, some text⟩]

/-- What some trees bring into scope one after the other. -/
def leavesAll (parts : List String) : List UseTree → List UseLeaf
  | [] => []
  | u :: us => leaves parts u ++ leavesAll parts us
end

mutual
/-- The tree without its aliases. -/
def plain : UseTree → UseTree
  | .named path name => .named path name
  | .renamed original _ => plain original
  | .glob path => .glob path
  | .list path items => .list path (plainAll items)
  | .word text => .word text

/-- Trees without their aliases. -/
def plainAll : List UseTree → List UseTree
  | [] => []
  | u :: us => plain u :: plainAll us
end

mutual
/-- Aliases bring nothing into scope. -/
theorem leaves_plain (parts : List String) : ∀ u : UseTree, u.plain.leaves parts = u.leaves parts
  | .named .. => rfl
  | .renamed original _ => leaves_plain parts original
  | .glob _ => rfl
  | .list path items => leavesAll_plainAll (parts ++ path.toList) items
  | .word _ => rfl

theorem leavesAll_plainAll (parts : List String) :
    ∀ us : List UseTree, leavesAll parts (plainAll us) = leavesAll parts us
  | [] => rfl
  | u :: us => congrArg₂ (· ++ ·) (leaves_plain parts u) (leavesAll_plainAll parts us)
end

theorem leavesAll_eq (parts : List String) (us : List UseTree) :
    leavesAll parts us = us.flatMap (leaves parts) := by
  induction us with
  | nil => rfl
  | cons u us ih => rw [leavesAll, ih, List.flatMap_cons]

end UseTree

/-- The kinds of single words. -/
def wordKinds : List String := ["identifier", "self", "crate", "super"]

/-- The kinds of the longer forms. -/
def longKinds : List String :=
  ["scoped_identifier", "use_as_clause", "use_wildcard", "scoped_use_list", "use_list"]

/-- The kinds of comments, which may stand between the items of a list. -/
def commentKinds : List String := ["line_comment", "block_comment"]

/-- A syntax tree is a `use` tree. -/
inductive Reads (source : Bytes) : Tree → UseTree → Prop
  /-- A path with a name at its end. -/
  | named {t : Tree} {path name : String} (kind : t.kind = "scoped_identifier")
      (hpath : t.fieldTextD "path" source = path) (hname : t.fieldText "name" source = some name) :
      Reads source t (.named path name)
  /-- A tree under another name. -/
  | renamed {t below : Tree} {original : UseTree} {newName : String}
      (kind : t.kind = "use_as_clause") (hbelow : t.field? "path" = some below)
      (hname : t.fieldText "alias" source = some newName) (h : Reads source below original) :
      Reads source t (.renamed original newName)
  /-- An asterisk with no path. -/
  | asterisk {t : Tree} (kind : t.kind = "use_wildcard") (hpath : t.namedChildren = []) :
      Reads source t (.glob none)
  /-- An asterisk behind a path. -/
  | glob {t below : Tree} {path : String} (kind : t.kind = "use_wildcard")
      (hbelow : t.namedChildren.head? = some below) (hcomment : below.kind ∉ commentKinds)
      (hpath : below.text source = path) :
      Reads source t (.glob (some path))
  /-- Items between braces. -/
  | braces {t : Tree} {items : List UseTree} (kind : t.kind = "use_list")
      (hitems : List.Forall₂ (Reads source)
        (t.namedChildren.filter (·.kind ∉ commentKinds)) items) :
      Reads source t (.list none items)
  /-- Items between braces behind a path, or behind the `::` of an empty one. -/
  | list {t below : Tree} {path : Option String} {items : List UseTree}
      (kind : t.kind = "scoped_use_list") (hpath : t.fieldText "path" source = path)
      (hne : path ≠ some "") (hbelow : t.field? "list" = some below)
      (h : Reads source below (.list none items)) :
      Reads source t (.list path items)
  /-- A single word. -/
  | word {t : Tree} {text : String} (kind : t.kind ∈ wordKinds)
      (htext : t.text source = text) :
      Reads source t (.word text)

/-! ## Paths -/

namespace UseTree

variable {parts : List String} {part : String}

theorem written_append_singleton (hparts : parts ≠ []) (part : String) :
    written (parts ++ [part]) = written parts ++ "::" ++ part := by
  rw [written, String.intercalate_append_of_ne_nil hparts (List.cons_ne_nil _ _),
    String.intercalate_singleton, written]

theorem written_eq_empty_iff (hparts : ∀ p ∈ parts, p ≠ "") : written parts = "" ↔ parts = [] := by
  rcases List.eq_nil_or_concat' parts with rfl | ⟨outer, last, rfl⟩
  · exact iff_of_true rfl rfl
  · refine iff_of_false (fun h => ?_) (by simp)
    have hlast := hparts last (List.mem_append_right _ (List.mem_singleton_self last))
    by_cases houter : outer = []
    · rw [houter, List.nil_append, written, String.intercalate_singleton] at h
      exact hlast h
    · rw [written_append_singleton houter, String.append_eq_empty_iff] at h
      exact hlast h.2

theorem joinPath_written (hparts : ∀ p ∈ parts, p ≠ "") (part : String) :
    joinPath (written parts) part = written (parts ++ [part]) := by
  rw [joinPath]
  by_cases hnil : parts = []
  · subst hnil
    rfl
  · rw [if_neg (mt (written_eq_empty_iff hparts).mp hnil), written_append_singleton hnil]

end UseTree

/-! ## Flattening -/

section Flatten

variable {source : Bytes} {stem : String} {t below : Tree}

theorem flattenUse_named (kind : t.kind = "scoped_identifier") {name : String}
    (hname : t.fieldText "name" source = some name) :
    flattenUse source stem t = [⟨joinPath stem (t.fieldTextD "path" source), some name⟩] := by
  rw [flattenUse, if_pos kind, hname]

theorem flattenUse_renamed (kind : t.kind = "use_as_clause")
    (hpath : t.field? "path" = some below) :
    flattenUse source stem t = flattenUse source stem below := by
  rw [flattenUse, if_neg (by rw [kind]; decide), if_pos kind]
  split
  · next path h => rw [Option.some.inj (hpath.symm.trans h)]
  · next h => cases hpath.symm.trans h

theorem flattenUse_wildcard (kind : t.kind = "use_wildcard") :
    flattenUse source stem t =
      [⟨((t.namedChildren.head?.map (·.text source)).map (joinPath stem)).getD stem, none⟩] := by
  rw [flattenUse, if_neg (by rw [kind]; decide), if_neg (by rw [kind]; decide), if_pos kind]
  cases t.namedChildren.head? with
  | none => rfl
  | some path => rfl

theorem flattenUse_scopedList (kind : t.kind = "scoped_use_list")
    (hlist : t.field? "list" = some below) :
    flattenUse source stem t =
      flattenUse source (((t.fieldText "path" source).map (joinPath stem)).getD stem) below := by
  rw [flattenUse, if_neg (by rw [kind]; decide), if_neg (by rw [kind]; decide),
    if_neg (by rw [kind]; decide), if_pos kind]
  split
  all_goals
    next hpath =>
      rw [hpath]
      split
      · next list h =>
        rw [Option.some.inj (hlist.symm.trans h)]
        rfl
      · next h => cases hlist.symm.trans h

theorem flattenUse_braces (kind : t.kind = "use_list") :
    flattenUse source stem t = t.namedChildren.flatMap (flattenUse source stem) := by
  rw [flattenUse, if_neg (by rw [kind]; decide), if_neg (by rw [kind]; decide),
    if_neg (by rw [kind]; decide), if_neg (by rw [kind]; decide), if_pos kind]
  simp

/-- Apart from the longer forms only single words are leaves. -/
theorem flattenUse_short (kind : t.kind ∉ longKinds) :
    flattenUse source stem t =
      if t.kind ∈ wordKinds then [wordLeaf stem (t.text source)] else [] := by
  have hne {k : String} (hk : k ∈ longKinds) : t.kind ≠ k := fun h => kind (h ▸ hk)
  rw [flattenUse, if_neg (hne (by decide)), if_neg (hne (by decide)), if_neg (hne (by decide)),
    if_neg (hne (by decide)), if_neg (hne (by decide))]
  simp only [wordKinds, List.mem_cons, List.not_mem_nil, or_false]

theorem flattenUse_word (kind : t.kind ∈ wordKinds) :
    flattenUse source stem t = [wordLeaf stem (t.text source)] := by
  have hshort : ∀ k ∈ wordKinds, k ∉ longKinds := by decide
  rw [flattenUse_short (hshort _ kind), if_pos kind]

theorem flattenUse_comment (kind : t.kind ∈ commentKinds) : flattenUse source stem t = [] := by
  have hshort : ∀ k ∈ commentKinds, k ∉ longKinds := by decide
  have hword : ∀ k ∈ commentKinds, k ∉ wordKinds := by decide
  rw [flattenUse_short (hshort _ kind), if_neg (hword _ kind)]

/-- Comments between the items of a list bring nothing into scope. -/
theorem flatMap_flattenUse_items (items : List Tree) :
    (items.filter (·.kind ∉ commentKinds)).flatMap (flattenUse source stem) =
      items.flatMap (flattenUse source stem) := by
  induction items with
  | nil => rfl
  | cons item items ih =>
    by_cases hcomment : item.kind ∈ commentKinds
    · rw [List.filter_cons_of_neg (by simpa using hcomment), List.flatMap_cons,
        flattenUse_comment hcomment, List.nil_append, ih]
    · rw [List.filter_cons_of_pos (by simpa using hcomment), List.flatMap_cons, List.flatMap_cons,
        ih]

theorem wordLeaf_written {parts : List String} (hparts : ∀ p ∈ parts, p ≠ "") (text : String) :
    [wordLeaf (UseTree.written parts) text] = (UseTree.word text).leaves parts := by
  rw [wordLeaf, UseTree.leaves]
  by_cases hnil : parts = []
  · rw [if_pos ((UseTree.written_eq_empty_iff hparts).mpr hnil), if_pos hnil]
  · rw [if_neg (mt (UseTree.written_eq_empty_iff hparts).mp hnil), if_neg hnil]
    split
    · rfl
    · rfl

private theorem flatMap_eq_of_forall₂ {α β γ : Type} {R : α → β → Prop} {f : α → List γ}
    {g : β → List γ} {as : List α} {bs : List β} (h : List.Forall₂ R as bs)
    (hfg : ∀ a ∈ as, ∀ b, R a b → f a = g b) : as.flatMap f = bs.flatMap g := by
  induction h with
  | nil => rfl
  | @cons a b as bs hab _ ih =>
    rw [List.flatMap_cons, List.flatMap_cons, hfg a List.mem_cons_self b hab,
      ih fun a' ha' => hfg a' (List.mem_cons_of_mem a ha')]

/-- The leaves of a syntax tree are what the `use` tree in it brings into scope. -/
theorem Reads.flattenUse_eq {u : UseTree} (h : Reads source t u) (parts : List String)
    (hparts : ∀ p ∈ parts, p ≠ "") :
    flattenUse source (UseTree.written parts) t = u.leaves parts := by
  induction t using Tree.induct generalizing u parts with
  | h t ih =>
    cases h with
    | named kind hpath hname =>
      rw [flattenUse_named kind hname, hpath, UseTree.joinPath_written hparts, UseTree.leaves]
    | renamed kind hbelow hname h =>
      rw [flattenUse_renamed kind hbelow, ih _ (List.mem_of_find?_eq_some hbelow) h _ hparts,
        UseTree.leaves]
    | asterisk kind hpath =>
      rw [flattenUse_wildcard kind, hpath, UseTree.leaves, Option.toList_none, List.append_nil]
      rfl
    | glob kind hbelow hcomment hpath =>
      rw [flattenUse_wildcard kind, hbelow, UseTree.leaves, Option.map_some, Option.map_some,
        Option.getD_some, hpath, UseTree.joinPath_written hparts, Option.toList_some]
    | braces kind hitems =>
      have hchildren : ∀ c ∈ t.namedChildren.filter (·.kind ∉ commentKinds), c ∈ t.children :=
        fun c hc => (List.mem_filter.mp (List.mem_filter.mp hc).1).1
      rw [flattenUse_braces kind, ← flatMap_flattenUse_items, UseTree.leaves, Option.toList_none,
        List.append_nil, UseTree.leavesAll_eq]
      exact flatMap_eq_of_forall₂ hitems fun c hc u hu => ih c (hchildren c hc) hu _ hparts
    | @list _ below path items kind hpath hne hbelow h =>
      -- Below the list the path of the list is one more part.
      have hitems := ih below (List.mem_of_find?_eq_some hbelow) h (parts ++ path.toList)
        fun p hp => by
          rcases List.mem_append.mp hp with hp | hp
          · exact hparts p hp
          · rintro rfl
            exact hne (Option.mem_toList.mp hp)
      rw [UseTree.leaves, Option.toList_none, List.append_nil] at hitems
      rw [flattenUse_scopedList kind hbelow, hpath, UseTree.leaves, ← hitems]
      cases path with
      | none => rw [Option.map_none, Option.getD_none, Option.toList_none, List.append_nil]
      | some path =>
        rw [Option.map_some, Option.getD_some, Option.toList_some, UseTree.joinPath_written hparts]
    | word kind htext => rw [flattenUse_word kind, htext, wordLeaf_written hparts]

end Flatten

/-! ## Grouping -/

section Group

variable {leaves : List UseLeaf} {leaf : UseLeaf} {line : Nat} {stem name : String}

/-- The name that a leaf has directly below a path. -/
def nameBelow (stem : String) (l : UseLeaf) : Option String :=
  if l.stem = stem then l.name else none

theorem filterMap_nameBelow_append (leaves : List UseLeaf) (leaf : UseLeaf) (stem : String) :
    (leaves ++ [leaf]).filterMap (nameBelow stem) =
      leaves.filterMap (nameBelow stem) ++ (nameBelow stem leaf).toList := by
  rw [List.filterMap_append]
  cases h : nameBelow stem leaf with
  | none => rw [List.filterMap_cons_none h, List.filterMap_nil, Option.toList_none]
  | some name => rw [List.filterMap_cons_some h, List.filterMap_nil, Option.toList_some]

/-- What leaves say of one path: the names below it, and whether the whole of it is meant. -/
def gathered (line : Nat) (leaves : List UseLeaf) (stem : String) : Import where
  source := stem
  symbols := Ordered.distinct (leaves.filterMap (nameBelow stem))
  isWildcard := decide (⟨stem, none⟩ ∈ leaves)
  line

theorem gathered_append_of_ne (h : stem ≠ leaf.stem) :
    gathered line (leaves ++ [leaf]) stem = gathered line leaves stem := by
  have hwhole : (⟨stem, none⟩ : UseLeaf) ∈ leaves ++ [leaf] ↔ ⟨stem, none⟩ ∈ leaves := by
    rw [List.mem_append, List.mem_singleton]
    exact or_iff_left fun heq => h (congrArg UseLeaf.stem heq)
  rw [gathered, gathered, filterMap_nameBelow_append, nameBelow, if_neg (Ne.symm h),
    Option.toList_none, List.append_nil, decide_eq_decide.mpr hwhole]

theorem addLeaf_gathered (line : Nat) (leaves : List UseLeaf) (leaf : UseLeaf) :
    addLeaf leaf (gathered line leaves leaf.stem) = gathered line (leaves ++ [leaf]) leaf.stem := by
  obtain ⟨stem, name⟩ := leaf
  have hname : nameBelow stem ⟨stem, name⟩ = name := if_pos rfl
  rw [gathered, gathered, filterMap_nameBelow_append, hname]
  cases name with
  | none =>
    have hwhole : (⟨stem, none⟩ : UseLeaf) ∈ leaves ++ [⟨stem, none⟩] :=
      List.mem_append_right _ (List.mem_singleton_self _)
    rw [decide_eq_true hwhole, Option.toList_none, List.append_nil]
    rfl
  | some name =>
    have hwhole : (⟨stem, none⟩ : UseLeaf) ∈ leaves ++ [⟨stem, some name⟩] ↔
        ⟨stem, none⟩ ∈ leaves := by
      rw [List.mem_append, List.mem_singleton]
      exact or_iff_left fun heq => nomatch congrArg UseLeaf.name heq
    rw [decide_eq_decide.mpr hwhole, Option.toList_some, Ordered.distinct_append_singleton]
    rfl

theorem gathered_of_notMem (h : stem ∉ leaves.map (·.stem)) :
    gathered line leaves stem = { source := stem, line } := by
  have hother : ∀ l ∈ leaves, l.stem ≠ stem := fun l hl heq =>
    h (heq ▸ List.mem_map_of_mem (f := (·.stem)) hl)
  have hnames : leaves.filterMap (nameBelow stem) = [] :=
    List.filterMap_eq_nil_iff.mpr fun l hl => if_neg (hother l hl)
  rw [gathered, hnames, decide_eq_false fun hwhole => hother _ hwhole rfl]
  rfl

/-- Leaves are gathered under their paths, in the order in which the paths first occur. -/
theorem foldl_groupLeaf (line : Nat) (leaves : List UseLeaf) :
    leaves.foldl (groupLeaf line) [] =
      (Ordered.distinct (leaves.map (·.stem))).map (gathered line leaves) := by
  induction leaves using List.reverseRecOn with
  | nil => rfl
  | append_singleton leaves leaf ih =>
    have hany : ((Ordered.distinct (leaves.map (·.stem))).map (gathered line leaves)).any
        (·.source = leaf.stem) = true ↔ leaf.stem ∈ Ordered.distinct (leaves.map (·.stem)) := by
      rw [List.any_map, List.any_eq_true]
      exact ⟨fun ⟨stem, hmem, heq⟩ => of_decide_eq_true heq ▸ hmem,
        fun hmem => ⟨leaf.stem, hmem, decide_eq_true rfl⟩⟩
    rw [List.foldl_append, ih, List.foldl_cons, List.foldl_nil, groupLeaf, List.map_append,
      List.map_singleton, Ordered.distinct_append_singleton, Ordered.insertOnce]
    by_cases hmem : leaf.stem ∈ Ordered.distinct (leaves.map (·.stem))
    · rw [if_pos (hany.mpr hmem), if_pos hmem, List.map_map]
      refine List.map_congr_left fun stem _ => ?_
      by_cases hstem : stem = leaf.stem
      · subst hstem
        exact (if_pos rfl).trans (addLeaf_gathered line leaves leaf)
      · exact (if_neg hstem).trans (gathered_append_of_ne hstem).symm
    · rw [if_neg (mt hany.mp hmem), if_neg hmem, List.map_append, List.map_singleton,
        ← addLeaf_gathered, gathered_of_notMem (mt Ordered.mem_distinct.mpr hmem)]
      refine congrArg (· ++ _) (List.map_congr_left fun stem hstem => ?_)
      exact (gathered_append_of_ne fun heq => hmem (heq ▸ hstem)).symm

/-- Imports say what leaves bring into scope: a name below a path is a symbol of the import of
that path, the whole of a path makes its import a wildcard, and all stand in the order of their
first occurrence. -/
structure Denotes (leaves : List UseLeaf) (imports : List Import) : Prop where
  named : ∀ stem name, (∃ i ∈ imports, i.source = stem ∧ name ∈ i.symbols) ↔
    ⟨stem, some name⟩ ∈ leaves
  whole : ∀ stem, (∃ i ∈ imports, i.source = stem ∧ i.isWildcard = true) ↔
    ⟨stem, none⟩ ∈ leaves
  apart : (imports.map (·.source)).Nodup
  sources : Ordered.FirstOccurrences (imports.map (·.source)) (leaves.map (·.stem))
  symbols : ∀ i ∈ imports,
    Ordered.FirstOccurrences i.symbols (leaves.filterMap (nameBelow i.source))

theorem mem_symbols_gathered :
    name ∈ (gathered line leaves stem).symbols ↔ ⟨stem, some name⟩ ∈ leaves := by
  rw [gathered, Ordered.mem_distinct, List.mem_filterMap]
  constructor
  · rintro ⟨⟨_, _⟩, hl, heq⟩
    obtain ⟨rfl, rfl⟩ := Option.ite_none_right_eq_some.mp heq
    exact hl
  · exact fun hl => ⟨_, hl, if_pos rfl⟩

/-- What is gathered from leaves says what they bring into scope. -/
theorem denotes_foldl_groupLeaf (line : Nat) (leaves : List UseLeaf) :
    Denotes leaves (leaves.foldl (groupLeaf line) []) := by
  have hsources : ((Ordered.distinct (leaves.map (·.stem))).map (gathered line leaves)).map
      (·.source) = Ordered.distinct (leaves.map (·.stem)) := by
    rw [List.map_map]
    exact List.map_id _
  have hexists (P : Import → Prop) (l : UseLeaf)
      (hP : P (gathered line leaves l.stem) ↔ l ∈ leaves) :
      (∃ i ∈ leaves.foldl (groupLeaf line) [], i.source = l.stem ∧ P i) ↔ l ∈ leaves := by
    rw [foldl_groupLeaf]
    constructor
    · rintro ⟨i, hi, hstem, hPi⟩
      obtain ⟨stem, -, rfl⟩ := List.mem_map.mp hi
      obtain rfl : stem = l.stem := hstem
      exact hP.mp hPi
    · intro hl
      have hstem := Ordered.mem_distinct.mpr (List.mem_map_of_mem (f := (·.stem)) hl)
      exact ⟨_, List.mem_map_of_mem hstem, rfl, hP.mpr hl⟩
  exact {
    named := fun stem name => hexists (name ∈ ·.symbols) ⟨stem, some name⟩ mem_symbols_gathered
    whole := fun stem => hexists (·.isWildcard = true) ⟨stem, none⟩ decide_eq_true_iff
    apart := by
      rw [foldl_groupLeaf, hsources]
      exact Ordered.nodup_distinct _
    sources := by
      rw [foldl_groupLeaf, hsources]
      exact Ordered.firstOccurrences_distinct _
    symbols := fun i hi => by
      rw [foldl_groupLeaf] at hi
      obtain ⟨stem, -, rfl⟩ := List.mem_map.mp hi
      exact Ordered.firstOccurrences_distinct _ }

end Group

/-! ## Declarations -/

section Declaration

variable {source : Bytes} {t argument : Tree} {u : UseTree}

theorem Reads.importsOfUse_eq (h : Reads source argument u)
    (hargument : t.field? "argument" = some argument) :
    importsOfUse t source = (u.leaves []).foldl (groupLeaf (t.line source)) [] := by
  have hflat := h.flattenUse_eq [] fun p hp => nomatch hp
  rw [importsOfUse, hargument, ← hflat]
  rfl

/-- The imports of a declaration say what its tree brings into scope. They stand together among
those of the file, and another declaration on the line whose tree differs in aliases only has the
same ones. -/
theorem importsOfUse_denotes (hargument : t.field? "argument" = some argument)
    (h : Reads source argument u) :
    Denotes (u.leaves []) (importsOfUse t source) ∧
      (∀ (source' : Bytes) (t' argument' : Tree) (u' : UseTree),
        t'.field? "argument" = some argument' → Reads source' argument' u' → u'.plain = u.plain →
          t'.line source' = t.line source → importsOfUse t' source' = importsOfUse t source) ∧
      ∀ root : Node, t.kind = "use_declaration" → t ∈ root.tree.preorder →
        importsOfUse t source <:+: imports root source := by
  refine ⟨?_, fun source' t' argument' u' hargument' h' hplain hline => ?_, fun root hkind ht => ?_⟩
  · rw [h.importsOfUse_eq hargument]
    exact denotes_foldl_groupLeaf _ _
  · rw [h'.importsOfUse_eq hargument', h.importsOfUse_eq hargument, hline, ← u'.leaves_plain,
      hplain, u.leaves_plain]
  · have hwalk : t ∈ (root.walk ["use_declaration"]).map (·.tree) := by
      rw [Node.map_tree_walk, List.mem_filter, hkind]
      exact ⟨ht, rfl⟩
    obtain ⟨n, hn, rfl⟩ := List.mem_map.mp hwalk
    obtain ⟨before, after, hsplit⟩ := List.append_of_mem hn
    rw [imports, hsplit, List.flatMap_append, List.flatMap_cons]
    exact ⟨_, _, (List.append_assoc ..)⟩

/-- `io::{self, Write as W}`, as it stands in the declaration below. -/
def sampleInner : Tree :=
  .node ⟨"scoped_use_list", true, none, 15, 37⟩
    [.node ⟨"identifier", true, some "path", 15, 17⟩ [],
      .node ⟨"::", false, none, 17, 19⟩ [],
      .node ⟨"use_list", true, some "list", 19, 37⟩
        [.node ⟨"self", true, none, 20, 24⟩ [],
          .node ⟨"use_as_clause", true, none, 26, 36⟩
            [.node ⟨"identifier", true, some "path", 26, 31⟩ [],
              .node ⟨"as", false, none, 32, 34⟩ [],
              .node ⟨"identifier", true, some "alias", 35, 36⟩ []]]]

/-- `std::{fmt, io::{self, Write as W}}`. -/
def sampleArgument : Tree :=
  .node ⟨"scoped_use_list", true, some "argument", 4, 38⟩
    [.node ⟨"identifier", true, some "path", 4, 7⟩ [],
      .node ⟨"::", false, none, 7, 9⟩ [],
      .node ⟨"use_list", true, some "list", 9, 38⟩
        [.node ⟨"identifier", true, none, 10, 13⟩ [], sampleInner]]

/-- The declaration of that tree. -/
def sampleDeclaration : Tree :=
  .node ⟨"use_declaration", true, none, 0, 39⟩ [.node ⟨"use", false, none, 0, 3⟩ [], sampleArgument]

/-- Its text. -/
def sampleSource : Bytes := Utf8.encode "use std::\x7bfmt, io::\x7bself, Write as W\x7d\x7d;"

/-- What it imports, in the forms of the language. -/
def sampleUseTree : UseTree :=
  .list (some "std")
    [.word "fmt", .list (some "io") [.word "self", .renamed (.word "Write") "W"]]

theorem reads_sampleArgument : Reads sampleSource sampleArgument sampleUseTree := by
  have hinner : Reads sampleSource sampleInner
      (.list (some "io") [.word "self", .renamed (.word "Write") "W"]) := by
    refine .list rfl (by decide +kernel) (by decide) rfl (.braces rfl ?_)
    refine .cons (.word (by decide) (by decide +kernel)) (.cons ?_ .nil)
    exact .renamed rfl rfl (by decide +kernel) (.word (by decide) (by decide +kernel))
  refine .list rfl (by decide +kernel) (by decide) rfl (.braces rfl ?_)
  exact .cons (.word (by decide) (by decide +kernel)) (.cons hinner .nil)

theorem sample_denotes :
    Reads sampleSource sampleArgument sampleUseTree ∧
      Denotes [⟨"std", some "fmt"⟩, ⟨"std::io", none⟩, ⟨"std::io", some "Write"⟩]
        (importsOfUse sampleDeclaration sampleSource) :=
  ⟨reads_sampleArgument, (importsOfUse_denotes rfl reads_sampleArgument).1⟩

end Declaration

end ChangeImpact.Rust
