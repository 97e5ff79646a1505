import ChangeImpact.Extraction.Project
import ChangeImpact.Proofs.Path.Normal
import ChangeImpact.Proofs.Text.Utf8
import Mathlib.Data.List.Basic
import Mathlib.Data.List.TakeWhile

/-!
# Imports from the directory of a file

Four languages have a statement that imports a path from the directory of the importing file,
each in its own syntax. The rules of the languages rewrite the path in different ways, but its
first candidate is always the path in that directory. The import is looked up there unless it
stands in C, C++ or Ruby and the path begins with a hidden name such as `.config`.
-/

namespace ChangeImpact

open Syntax

/-! ## Paths in quotes -/

namespace Text

variable {q : Char → Bool} {s : String}

theorem dropWhile_of_head? {cs : List Char} (h : ∀ c ∈ cs.head?, q c = false) :
    cs.dropWhile q = cs := by
  cases cs with
  | nil => rfl
  | cons c cs => exact List.dropWhile_cons_of_neg (Bool.eq_false_iff.mp (h c rfl))

/-- Of a text in the middle of characters that are left out the middle remains, unless it begins
or ends with such characters itself. -/
theorem trimBy_wrapped {front back : String} (hfront : ∀ c ∈ front.toList, q c = true)
    (hback : ∀ c ∈ back.toList, q c = true) (hfirst : ∀ c ∈ s.toList.head?, q c = false)
    (hlast : ∀ c ∈ s.toList.getLast?, q c = false) : trimBy q (front ++ s ++ back) = s := by
  -- When nothing is in the middle, what stands behind it goes with what stands in front.
  have hstart : (s.toList ++ back.toList).dropWhile q = s.toList ++ back.toList ∨
      s.toList = [] ∧ (s.toList ++ back.toList).dropWhile q = [] := by
    cases hs : s.toList with
    | nil => exact .inr ⟨rfl, List.dropWhile_eq_nil_iff.mpr hback⟩
    | cons c cs =>
      rw [hs] at hfirst
      exact .inl (dropWhile_of_head? hfirst)
  rw [trimBy, trimStartBy, trimEndBy, String.toList_ofList, String.toList_append,
    String.toList_append, List.append_assoc, List.dropWhile_append_of_pos hfront,
    ← String.toList_inj, String.toList_ofList]
  rcases hstart with hstart | ⟨hs, hstart⟩
  · have hback' : ∀ c ∈ back.toList.reverse, q c = true :=
      fun c hc => hback c (List.mem_reverse.mp hc)
    have hlast' : ∀ c ∈ s.toList.reverse.head?, q c = false := by rwa [List.head?_reverse]
    rw [hstart, List.reverse_append, List.dropWhile_append_of_pos hback',
      dropWhile_of_head? hlast', List.reverse_reverse]
  · rw [hstart, hs]
    rfl

/-- A text that neither begins nor ends with a character to leave out stays as it is. -/
theorem trimBy_eq_self (hfirst : ∀ c ∈ s.toList.head?, q c = false)
    (hlast : ∀ c ∈ s.toList.getLast?, q c = false) : trimBy q s = s := by
  have hwrapped : trimBy q ("" ++ s ++ "") = s :=
    trimBy_wrapped (by simp) (by simp) hfirst hlast
  rwa [String.empty_append, String.append_empty] at hwrapped

theorem unquote_wrapped {c : Char} (hquote : isQuote c = true) (hblank : isBlank c = false)
    (hfirst : ∀ c ∈ s.toList.head?, isQuote c = false)
    (hlast : ∀ c ∈ s.toList.getLast?, isQuote c = false) :
    unquote (String.singleton c ++ s ++ String.singleton c) = s := by
  have hmem : ∀ d ∈ (String.singleton c).toList, isQuote d = true := by simpa using hquote
  have htrim : trim (String.singleton c ++ s ++ String.singleton c) =
      String.singleton c ++ s ++ String.singleton c :=
    trimBy_eq_self (by simpa using hblank) (by simpa [List.getLast?_cons] using hblank)
  rw [unquote, htrim, trimBy_wrapped hmem hmem hfirst hlast]

theorem startsWith_append (s t : String) : startsWith (s ++ t) s = true := by
  rw [startsWith, String.toList_append, List.isPrefixOf_iff_prefix]
  exact List.prefix_append ..

end Text

/-! ## Paths in a directory -/

namespace Path

variable {p : String}

/-- Neither a path from the root nor white space or quotes at an end. -/
structure IsBare (p : String) : Prop where
  first : ∀ c ∈ p.toList.head?, c ≠ '/' ∧ Text.isBlank c = false ∧ Text.isQuote c = false
  last : ∀ c ∈ p.toList.getLast?, Text.isBlank c = false ∧ Text.isQuote c = false

/-- Whether a path begins with a dot that is part of a name. -/
def startsHidden (p : String) : Bool := Text.startsWith p "." && !Import.isRelativePath p

/-- A path marked as one from the directory of a file, unless it begins with a dot. -/
def beside (p : String) : String := if Text.startsWith p "." then p else "./" ++ p

theorem IsBare.startsWith_slash (h : IsBare p) : Text.startsWith p "/" = false := by
  rw [← Bool.not_eq_true, Text.startsWith, List.isPrefixOf_iff_prefix]
  rintro ⟨rest, hrest⟩
  exact (h.first '/' (by rw [← hrest]; rfl)).1 rfl

theorem IsBare.unquote (h : IsBare p) : Text.unquote ("\"" ++ p ++ "\"") = p :=
  Text.unquote_wrapped (c := '"') rfl rfl (fun c hc => (h.first c hc).2.2)
    fun c hc => (h.last c hc).2

theorem IsBare.unquote_slash (h : IsBare p) {quote : String} (hquote : quote = "'" ∨ quote = "\"") :
    Text.unquote (quote ++ ("/" ++ p) ++ quote) = "/" ++ p := by
  have hfirst : ∀ c ∈ ("/" ++ p).toList.head?, Text.isQuote c = false := by
    rw [String.toList_append]
    rintro c ⟨⟩
    rfl
  have hlast : ∀ c ∈ ("/" ++ p).toList.getLast?, Text.isQuote c = false := by
    intro c hc
    rw [String.toList_append, show "/".toList = ['/'] from rfl, List.singleton_append,
      List.getLast?_cons] at hc
    cases hlast : p.toList.getLast? with
    | none =>
      rw [hlast] at hc
      cases hc
      rfl
    | some d =>
      rw [hlast] at hc
      cases hc
      exact (h.last d hlast).2
  rcases hquote with rfl | rfl
  · exact Text.unquote_wrapped (c := '\'') rfl rfl hfirst hlast
  · exact Text.unquote_wrapped (c := '"') rfl rfl hfirst hlast

/-- A step to the directory itself does not count. -/
theorem normalize_append_here (a p : String) :
    normalize (a ++ "/" ++ ("./" ++ p)) = normalize (a ++ "/" ++ p) := by
  have hsegments : segments ("./" ++ p) = "." :: segments p := by
    rw [show "./" = "." ++ "/" from rfl, segments_append]
    rfl
  rw [normalize, normalize, resolved_append, resolved_append, hsegments, List.foldl_cons]
  rfl

theorem isRelativePath_here (p : String) : Import.isRelativePath ("./" ++ p) = true := by
  rw [Import.isRelativePath, Text.startsWith_append, Bool.true_or]

theorem isRelativePath_up (p : String) : Import.isRelativePath ("../" ++ p) = true := by
  rw [Import.isRelativePath, Text.startsWith_append, Bool.or_true]

theorem normalize_append_beside (a p : String) :
    normalize (a ++ "/" ++ beside p) = normalize (a ++ "/" ++ p) := by
  rw [beside]
  split
  · rfl
  · exact normalize_append_here a p

theorem isRelativePath_beside (p : String) :
    Import.isRelativePath (beside p) = true ↔ startsHidden p = false := by
  rw [beside, startsHidden]
  cases hdot : Text.startsWith p "." with
  | true => simp
  | false => simp [isRelativePath_here]

end Path

/-! ## Statements -/

/-- The statements of a language that import, where the language can import from the directory of
a file. -/
def statementKinds : Language → List String
  | .c | .cpp => ["preproc_include"]
  | .ruby => ["call"]
  | .php => Php.includeKinds ++ ["namespace_use_clause"]
  | .python => ["import_statement", "import_from_statement"]
  | _ => []

/-- What a statement adds to the imports of its file. -/
def importsAt (language : Language) (source : Bytes) (n : Node) : List Import :=
  match language with
  | .c | .cpp => ((n.tree.field? "path").map fun path =>
      Import.whole (C.includeTarget path source) (n.tree.line source)).toList
  | .ruby => Ruby.importsOfCall n.tree source
  | .php =>
    (if n.kind = "namespace_use_clause" then some (Php.importOfUse n.tree source)
    else Php.importOfInclude n.tree source).toList
  | .python =>
    if n.kind = "import_statement" then Python.plainImports n.tree source
    else Python.fromImports n.tree source
  | _ => []

/-- A statement that imports a path from the directory of its file. -/
inductive ImportsBeside (source : Bytes) : Language → Tree → String → Prop
  /-- The header of an include in double quotes. -/
  | quotedInclude {language : Language} {t path : Tree} {p : String}
      (hlanguage : language = .c ∨ language = .cpp) (ht : t.kind = "preproc_include")
      (hpath : t.field? "path" = some path) (hliteral : path.kind = "string_literal")
      (htext : path.text source = "\"" ++ p ++ "\"") : ImportsBeside source language t p
  /-- The argument of `require_relative`. -/
  | requireRelative {t arguments content : Tree} (ht : t.kind = "call")
      (hreceiver : t.field? "receiver" = none)
      (hmethod : t.fieldText "method" source = some "require_relative")
      (harguments : t.field? "arguments" = some arguments)
      (hcontent : arguments.firstOfKind ["string_content"] = some content) :
      ImportsBeside source .ruby t (content.text source)
  /-- A literal behind `__DIR__`, from its slash on. -/
  | fromDirectory {t literal : Tree} {p quote : String} (ht : t.kind ∈ Php.includeKinds)
      (hdirectory : Text.contains (t.text source) "__DIR__" = true)
      (hliteral : t.firstOfKind ["string", "encapsed_string"] = some literal)
      (hquote : quote = "'" ∨ quote = "\"")
      (htext : literal.text source = quote ++ ("/" ++ p) ++ quote) : ImportsBeside source .php t p
  /-- A dotted name behind dots without blanks, of which the first stands for the directory and each
  further one for one level up. -/
  | fromDots {t module dots name : Tree} {k : Nat} (ht : t.kind = "import_from_statement")
      (hmodule : t.field? "module_name" = some module) (hrelative : module.kind = "relative_import")
      (hdots : module.findChild "import_prefix" = some dots) (hk : 1 ≤ k)
      (htext : dots.text source = String.ofList (List.replicate k '.'))
      (hname : module.findChild "dotted_name" = some name) :
      ImportsBeside source .python t
        (String.join (List.replicate (k - 1) "../") ++
          Text.replaceChar '.' '/' (name.text source))

/-- An import at its place among those of a file: a statement adds it and nothing else. -/
def Contributes (language : Language) (source : Bytes) (root n : Node) (i : Import) : Prop :=
  ∃ earlier later, root.walk (statementKinds language) = earlier ++ n :: later ∧
    Extractor.items (language.extractor.imports root source) =
      earlier.flatMap (importsAt language source) ++
        i :: later.flatMap (importsAt language source)

variable {language : Language} {source : Bytes} {root n : Node} {i : Import} {p : String}

/-- A path in the directory of a file that an import is looked up at first. It is looked up there
at all unless the language leaves a leading dot as it is and that dot is part of a name. -/
structure LooksUp (language : Language) (p : String) (i : Import) : Prop where
  candidate (importer : String) : (Path.candidates importer i.source).head? =
    some (Path.normalize (Path.parent importer ++ "/" ++ p))
  isRelative : i.isRelative = true ↔
    language = .php ∨ language = .python ∨ Path.startsHidden p = false

theorem looksUp_beside (hlanguage : language ≠ .php ∧ language ≠ .python)
    (hi : i.source = Path.beside p) : LooksUp language p i where
  candidate importer := by
    rw [hi, ← Path.normalize_append_beside]
    rfl
  isRelative := by
    rw [Import.isRelative, hi, Path.isRelativePath_beside, or_iff_right hlanguage.1,
      or_iff_right hlanguage.2]

theorem looksUp_here (hlanguage : language = .php ∨ language = .python)
    (hi : i.source = "./" ++ p) : LooksUp language p i where
  candidate importer := by
    rw [hi, ← Path.normalize_append_here]
    rfl
  isRelative := by
    rw [Import.isRelative, hi, ← or_assoc]
    exact iff_of_true (Path.isRelativePath_here p) (.inl hlanguage)

theorem items_imports (h : ImportsBeside source language n.tree p) :
    Extractor.items (language.extractor.imports root source) =
      (root.walk (statementKinds language)).flatMap (importsAt language source) := by
  cases h with
  | quotedInclude hlanguage =>
    rcases hlanguage with rfl | rfl
    all_goals exact List.filterMap_eq_flatMap_toList ..
  | requireRelative => rfl
  | fromDirectory => exact List.filterMap_eq_flatMap_toList ..
  | fromDots => rfl

theorem contributes_of_importsAt (h : ImportsBeside source language n.tree p)
    (hn : n ∈ root.walk (statementKinds language)) (hi : importsAt language source n = [i]) :
    Contributes language source root n i := by
  obtain ⟨earlier, later, hwalk⟩ := List.append_of_mem hn
  refine ⟨earlier, later, hwalk, ?_⟩
  rw [items_imports h, hwalk, List.flatMap_append, List.flatMap_cons, hi, List.singleton_append]

theorem includeTarget_quoted {path : Tree} (hp : Path.IsBare p)
    (hliteral : path.kind = "string_literal") (htext : path.text source = "\"" ++ p ++ "\"") :
    C.includeTarget path source = Path.beside p := by
  rw [C.includeTarget, htext, hp.unquote, hp.startsWith_slash, Path.beside]
  cases Text.startsWith p "." with
  | true => simp
  | false => simp [hliteral]

theorem importOfRequire_relative {arguments content : Tree} {line : Nat}
    (hcontent : arguments.firstOfKind ["string_content"] = some content) :
    Ruby.importOfRequire "require_relative" arguments line source =
      some (Import.whole (Path.beside (content.text source)) line) := by
  rw [Ruby.importOfRequire, hcontent, Option.map_some, Path.beside]
  cases hdot : Text.startsWith (content.text source) "." with
  | true => simp [hdot]
  | false => simp [hdot]

theorem importsOfCall_requireRelative {t arguments content : Tree}
    (hreceiver : t.field? "receiver" = none)
    (hmethod : t.fieldText "method" source = some "require_relative")
    (harguments : t.field? "arguments" = some arguments)
    (hcontent : arguments.firstOfKind ["string_content"] = some content) :
    Ruby.importsOfCall t source =
      [Import.whole (Path.beside (content.text source)) (t.line source)] := by
  have hmember : Ruby.requireMethods.contains "require_relative" = true := by decide
  rw [Ruby.importsOfCall, hreceiver, hmethod, harguments, if_neg (by simp)]
  dsimp only
  rw [if_pos hmember, importOfRequire_relative hcontent]
  rfl

theorem importOfInclude_directory {t literal : Tree}
    (hdirectory : Text.contains (t.text source) "__DIR__" = true)
    (hliteral : t.firstOfKind ["string", "encapsed_string"] = some literal)
    (htarget : Text.unquote (literal.text source) = "/" ++ p) :
    Php.importOfInclude t source = some (Import.whole ("./" ++ p) (t.line source)) := by
  rw [Php.importOfInclude, hliteral, Option.map_some, htarget, hdirectory]
  dsimp only
  rw [Text.startsWith_append, if_pos (by decide), ← String.append_assoc]
  rfl

theorem length_encode_dots (k : Nat) :
    (Utf8.encode (Text.trim (String.ofList (List.replicate k '.')))).length = k := by
  have hblank : ∀ c ∈ List.replicate k '.', Text.isBlank c = false := by
    intro c hc
    rw [List.eq_of_mem_replicate hc]
    rfl
  have htrim : Text.trim (String.ofList (List.replicate k '.')) =
      String.ofList (List.replicate k '.') :=
    Text.trimBy_eq_self
      (fun c hc => hblank c (List.mem_of_head? (by rwa [String.toList_ofList] at hc)))
      fun c hc => hblank c (List.mem_of_getLast? (by rwa [String.toList_ofList] at hc))
  rw [htrim, Utf8.encode, String.toList_ofList, List.length_flatMap, List.map_replicate,
    List.sum_replicate_nat]
  exact Nat.mul_one k

theorem source_bindAll (i : Import) (names : List String) :
    (i.bindAll names).source = i.source := by
  induction names generalizing i with
  | nil => rfl
  | cons name names ih => exact ih (i.bind name)

theorem fromImports_dots {t module dots name : Tree} {k : Nat}
    (hmodule : t.field? "module_name" = some module) (hrelative : module.kind = "relative_import")
    (hdots : module.findChild "import_prefix" = some dots)
    (htext : dots.text source = String.ofList (List.replicate k '.'))
    (hname : module.findChild "dotted_name" = some name) :
    ∃ i, Python.fromImports t source = [i] ∧
      i.source = Python.climb k ++ Python.modulePath (name.text source) := by
  rw [Python.fromImports, hmodule]
  simp only [hdots, hname, Option.map_some, Option.getD_some, htext, length_encode_dots]
  rw [if_pos hrelative]
  exact ⟨_, rfl, source_bindAll ..⟩

theorem looksUp_climb {k : Nat} (hk : 1 ≤ k) (path : String)
    (hi : i.source = Python.climb k ++ path) :
    LooksUp .python (String.join (List.replicate (k - 1) "../") ++ path) i := by
  rw [Python.climb] at hi
  split at hi
  case isTrue hone =>
    -- One dot is the directory itself: the path has no step up.
    obtain rfl : k = 1 := by omega
    exact looksUp_here (.inr rfl) hi
  case isFalse hmore =>
    have hup : String.join (List.replicate (k - 1) "../") =
        "../" ++ String.join (List.replicate (k - 2) "../") := by
      rw [show k - 1 = k - 2 + 1 by omega, List.replicate_succ, String.join_cons]
    constructor
    · intro importer
      rw [hi]
      rfl
    · rw [Import.isRelative, hi, hup, String.append_assoc, Path.isRelativePath_up]
      exact iff_of_true rfl (.inr (.inl rfl))

/-- What a statement from the directory of its file adds. -/
theorem exists_importsAt (hp : Path.IsBare p) (h : ImportsBeside source language n.tree p) :
    ∃ i, importsAt language source n = [i] ∧ LooksUp language p i := by
  cases h with
  | @quotedInclude _ _ path _ hlanguage ht hpath hliteral htext =>
    refine ⟨Import.whole (Path.beside p) (n.tree.line source), ?_, looksUp_beside ?_ rfl⟩
    · rcases hlanguage with rfl | rfl
      all_goals
        rw [importsAt, hpath, Option.map_some, includeTarget_quoted hp hliteral htext]
        rfl
    · rcases hlanguage with rfl | rfl <;> decide
  | requireRelative ht hreceiver hmethod harguments hcontent =>
    exact ⟨_, importsOfCall_requireRelative hreceiver hmethod harguments hcontent,
      looksUp_beside (by decide) rfl⟩
  | fromDirectory ht hdirectory hliteral hquote htext =>
    refine ⟨Import.whole ("./" ++ p) (n.tree.line source), ?_, looksUp_here (.inl rfl) rfl⟩
    have hkind : n.kind ≠ "namespace_use_clause" := fun he =>
      absurd (he ▸ ht : "namespace_use_clause" ∈ Php.includeKinds) (by decide)
    have htarget := htext ▸ hp.unquote_slash hquote
    rw [importsAt, if_neg hkind, importOfInclude_directory hdirectory hliteral htarget]
    rfl
  | fromDots ht hmodule hrelative hdots hk htext hname =>
    obtain ⟨i, hi, htarget⟩ := fromImports_dots hmodule hrelative hdots htext hname
    refine ⟨i, ?_, looksUp_climb hk _ htarget⟩
    have hkind : n.kind = "import_from_statement" := ht
    rw [importsAt, if_neg (by rw [hkind]; decide), hi]

/-- A statement that imports a path from the directory of its file adds one import. This is looked
up at that path first, whichever file imports it, provided that it is looked up at all. -/
theorem contributes_of_importsBeside (hp : Path.IsBare p)
    (h : ImportsBeside source language n.tree p) (hn : n ∈ root.walk (statementKinds language)) :
    ∃ i, Contributes language source root n i ∧ LooksUp language p i := by
  obtain ⟨i, hi, hlooksUp⟩ := exists_importsAt hp h
  exact ⟨i, contributes_of_importsAt h hn hi, hlooksUp⟩

theorem isBare_sampleHeaders : Path.IsBare "util.h" ∧ Path.IsBare ".config/app.h" := by
  refine ⟨⟨?_, ?_⟩, ?_, ?_⟩
  all_goals
    rintro c ⟨⟩
    decide

/-- A file that includes a header in double quotes, and nothing else. -/
def sampleIncluding (header : String) : Bytes := Utf8.encode ("#include \"" ++ header ++ "\"")

/-- The include in the file. -/
def sampleInclude (header : String) : Tree :=
  .node ⟨"preproc_include", true, none, 0, header.length + 11⟩
    [.node ⟨"#include", false, none, 0, 8⟩ [],
      .node ⟨"string_literal", true, some "path", 9, header.length + 11⟩
        [.node ⟨"string_content", true, none, 10, header.length + 10⟩ []]]

/-- The tree of the file. -/
def sampleIncludingTree (header : String) : Tree :=
  .node ⟨"translation_unit", true, none, 0, header.length + 11⟩ [sampleInclude header]

/-- The include at its place in the tree. -/
def sampleIncludeNode (header : String) : Node :=
  ⟨sampleInclude header, [⟨sampleIncludingTree header, []⟩]⟩

theorem sample_looksUp :
    Path.IsBare "util.h" ∧
      ImportsBeside (sampleIncluding "util.h") .c (sampleInclude "util.h") "util.h" ∧
      sampleIncludeNode "util.h" ∈
        (Node.ofTree (sampleIncludingTree "util.h")).walk (statementKinds .c) ∧
      ∃ i, Contributes .c (sampleIncluding "util.h") (Node.ofTree (sampleIncludingTree "util.h"))
        (sampleIncludeNode "util.h") i ∧ LooksUp .c "util.h" i :=
  have hp : Path.IsBare "util.h" := isBare_sampleHeaders.1
  have hinclude : ImportsBeside (sampleIncluding "util.h") .c (sampleInclude "util.h") "util.h" :=
    .quotedInclude (.inl rfl) rfl rfl rfl (by decide +kernel)
  have hwalk : sampleIncludeNode "util.h" ∈
      (Node.ofTree (sampleIncludingTree "util.h")).walk (statementKinds .c) := by
    rw [Node.walk, Node.walkStack]
    change _ ∈ Node.walkStack _ [sampleIncludeNode "util.h"]
    rw [Node.walkStack]
    exact List.mem_cons_self
  ⟨hp, hinclude, hwalk, contributes_of_importsBeside hp hinclude hwalk⟩

/-- A quoted include of a hidden directory next to the file is not looked up there. -/
theorem sample_hiddenInclude :
    Path.IsBare ".config/app.h" ∧
      ImportsBeside (sampleIncluding ".config/app.h") .c (sampleInclude ".config/app.h")
        ".config/app.h" ∧
      (Extractor.items (Language.c.extractor.imports
        (Node.ofTree (sampleIncludingTree ".config/app.h"))
        (sampleIncluding ".config/app.h"))).map (fun i => (i.source, i.isRelative)) =
          [(".config/app.h", false)] ∧
      Path.resolve "src/app.c" ".config/app.h" ["src/.config/app.h"] = none :=
  ⟨isBare_sampleHeaders.2, .quotedInclude (.inl rfl) rfl rfl rfl (by decide +kernel),
    by decide +kernel, by decide +kernel⟩

end ChangeImpact
