import ChangeImpact.Proofs.Extraction.Lines
import ChangeImpact.Proofs.Extraction.Relative
import ChangeImpact.Proofs.Extraction.Scripts
import ChangeImpact.Proofs.Text.Pieces

/-!
# What import statements add

The rules of a language visit the import statements of a file in document order, and each statement
adds its own imports to those of the file, on its line and without regard to the others. A statement
adds at least one import, which depends on the whole source when the statement imports everything.
Two forms are overlooked and add nothing: a Python import of everything from the package that dots
alone name, and a C# directive that consists of keywords.
-/

namespace ChangeImpact

open Syntax

/-! ## Imports node by node -/

/-- The kinds of nodes at which the rules of a language look for imports. -/
def importKinds : Language → List String
  | .typeScript | .tsx | .javaScript => ["import_statement", "export_statement", "call_expression"]
  | .go => ["import_spec"]
  | .rust => ["use_declaration"]
  | .java => ["import_declaration"]
  | .cSharp => ["using_directive"]
  | language => statementKinds language

/-- What a node adds to the imports of its file. -/
def importsOf (language : Language) (source : Bytes) (n : Node) : List Import :=
  match language with
  | .typeScript | .tsx | .javaScript => (TypeScript.importOf n source).toList
  | .go => ((n.tree.fieldText "path" source).map fun raw =>
      (Import.whole (Text.unquote raw) (n.tree.line source)).bindAll
        (Go.boundNames n.tree (Text.unquote raw) source)).toList
  | .rust => Rust.importsOfUse n.tree source
  | .java => (Java.importOf n.tree source).toList
  | .cSharp => (CSharp.importOf n.tree source).toList
  | language => importsAt language source n

variable {language : Language} {source : Bytes} {root n : Node} {t : Tree} {i : Import}
  {whole : Prop}

/-- The imports of a file are what its nodes add, one after the other. -/
theorem items_imports_eq_flatMap (language : Language) (root : Node) (source : Bytes) :
    Extractor.items (language.extractor.imports root source) =
      (root.walk (importKinds language)).flatMap (importsOf language source) := by
  cases language with
  | typeScript | tsx | javaScript => exact List.filterMap_eq_flatMap_toList ..
  | go | java | cSharp => exact List.filterMap_eq_flatMap_toList ..
  | c | cpp | php => exact List.filterMap_eq_flatMap_toList ..
  | python | rust | ruby => rfl

theorem importsOf_go (source : Bytes) (n : Node) :
    importsOf .go source n = ((n.tree.fieldText "path" source).map fun raw =>
      (Import.whole (Text.unquote raw) (n.tree.line source)).bindAll
        (Go.boundNames n.tree (Text.unquote raw) source)).toList := rfl

theorem importsOf_java (source : Bytes) (n : Node) :
    importsOf .java source n = (Java.importOf n.tree source).toList := rfl

theorem importsOf_cSharp (source : Bytes) (n : Node) :
    importsOf .cSharp source n = (CSharp.importOf n.tree source).toList := rfl

theorem importsOf_python (source : Bytes) (n : Node) :
    importsOf .python source n =
      if n.kind = "import_statement" then Python.plainImports n.tree source
      else Python.fromImports n.tree source := rfl

theorem line_of_mem_importsOf (h : i ∈ importsOf language source n) :
    i.line = n.tree.line source := by
  cases language with
  | typeScript | tsx | javaScript =>
    have hi := Option.mem_toList.mp h
    rw [TypeScript.importOf] at hi
    split_ifs at hi
    · exact TypeScript.line_of_importOfStatement hi
    · exact TypeScript.line_of_importOfExport hi
    · exact TypeScript.line_of_importOfCall hi
  | python =>
    rw [importsOf_python] at h
    split_ifs at h
    · exact Python.line_of_mem_plainImports h
    · exact Python.line_of_mem_fromImports h
  | go =>
    obtain ⟨raw, -, rfl⟩ := Option.map_eq_some_iff.mp (Option.mem_toList.mp h)
    exact Import.line_bindAll ..
  | rust => exact Rust.line_of_mem_importsOfUse h
  | java => exact Java.line_of_importOf (Option.mem_toList.mp h)
  | c | cpp =>
    obtain ⟨path, -, rfl⟩ := Option.map_eq_some_iff.mp (Option.mem_toList.mp h)
    exact Import.line_whole ..
  | cSharp => exact CSharp.line_of_importOf (Option.mem_toList.mp h)
  | php =>
    have hi := Option.mem_toList.mp h
    split_ifs at hi
    · obtain rfl := Option.some.inj hi
      exact Php.line_importOfUse ..
    · obtain ⟨literal, -, rfl⟩ := Option.map_eq_some_iff.mp hi
      exact Import.line_whole ..
  | ruby => exact Ruby.line_of_mem_importsOfCall h

/-! ## Statements -/

/-- The names that a Python statement imports. -/
def Python.importedNames (t : Tree) (source : Bytes) : List String :=
  (t.fields "name").filterMap (importedName · source)

/-- The words of a C# directive, without the semicolon at its end. -/
def CSharp.directiveWords (raw : String) : List String :=
  Text.words (Text.trimEndBy (· == ';') (Text.trim raw))

/-- The words of a C# directive that do not say what is used. -/
def CSharp.keywords : List String := ["global", "using", "static"]

/-- A statement that imports something, and when it imports everything that there is. -/
inductive StatesImport (source : Bytes) : Language → Tree → Prop → Prop
  /-- An import of what a clause requires. -/
  | required {language : Language} {t clause target : Tree} (hlanguage : language.IsScript)
      (ht : t.kind = "import_statement")
      (hclause : t.findChild "import_require_clause" = some clause)
      (htarget : clause.field? "source" = some target) : StatesImport source language t True
  /-- An import for its effect. -/
  | effect {language : Language} {t target : Tree} (hlanguage : language.IsScript)
      (ht : t.kind = "import_statement") (hrequire : t.findChild "import_require_clause" = none)
      (htarget : t.field? "source" = some target) (hclause : t.findChild "import_clause" = none) :
      StatesImport source language t True
  /-- An import with a clause, of everything if the clause names the source as a whole. -/
  | clause {language : Language} {t clause target : Tree} (hlanguage : language.IsScript)
      (ht : TypeScript.ImportsBy t clause target) :
      StatesImport source language t (∃ part ∈ clause.namedChildren, part.kind = "namespace_import")
  /-- An export from a source, of everything if it has no clause. -/
  | exported {language : Language} {t target : Tree} (hlanguage : language.IsScript)
      (ht : t.kind = "export_statement") (htarget : t.field? "source" = some target) :
      StatesImport source language t (t.findChild "export_clause" = none)
  /-- An import of modules. -/
  | modules {t : Tree} (ht : t.kind = "import_statement")
      (hnames : Python.importedNames t source ≠ []) : StatesImport source .python t True
  /-- An import from a module, of everything if it has an asterisk. -/
  | fromModule {t module : Tree} (ht : t.kind = "import_from_statement")
      (hmodule : t.field? "module_name" = some module)
      (hnames : Python.importedNames t source ≠ [] ∨ t.findChild "wildcard_import" ≠ none) :
      StatesImport source .python t (t.findChild "wildcard_import" ≠ none)
  /-- An import of a package. -/
  | package {t path : Tree} (ht : t.kind = "import_spec") (hpath : t.field? "path" = some path) :
      StatesImport source .go t True
  /-- An include of a header. -/
  | header {language : Language} {t path : Tree} (hlanguage : language = .c ∨ language = .cpp)
      (ht : t.kind = "preproc_include") (hpath : t.field? "path" = some path) :
      StatesImport source language t True
  /-- An import of a class or, with an asterisk, of a package. -/
  | declaration {t name : Tree} (ht : t.kind = "import_declaration")
      (hname : (t.findChild "scoped_identifier").or (t.findChild "identifier") = some name) :
      StatesImport source .java t (t.findChild "asterisk" ≠ none)
  /-- A directive that uses a namespace or, with an equals sign, names one type. -/
  | directive {t : Tree} (ht : t.kind = "using_directive") :
      StatesImport source .cSharp t ('=' ∉ (t.text source).toList)

/-- A statement that adds nothing: one that imports no name from a package given by dots alone, and
a directive of which every word is a keyword. -/
def Overlooked (source : Bytes) (t : Tree) : Language → Prop
  | .python => t.kind = "import_from_statement" ∧ Python.importedNames t source = [] ∧
      ∃ module, t.field? "module_name" = some module ∧ module.kind = "relative_import" ∧
        module.findChild "dotted_name" = none
  | .cSharp => ∀ w ∈ CSharp.directiveWords (t.text source), w ∈ CSharp.keywords
  | _ => False

/-! ## TypeScript, TSX and JavaScript -/

theorem Language.IsScript.importsOf (h : language.IsScript) :
    importsOf language source n = (TypeScript.importOf n source).toList := by
  rcases h with rfl | rfl | rfl <;> rfl

theorem Language.IsScript.not_overlooked (h : language.IsScript) :
    ¬Overlooked source t language := by
  rcases h with rfl | rfl | rfl <;> exact id

namespace TypeScript

theorem importOfStatement_required {clause target : Tree}
    (hclause : t.findChild "import_require_clause" = some clause)
    (htarget : clause.field? "source" = some target) :
    importOfStatement t source =
      some (Import.whole (Text.unquote (target.text source)) (t.line source)) := by
  rw [importOfStatement, hclause]
  simp only [Tree.fieldText, htarget, Option.map_some]

theorem importOfStatement_effect {target : Tree}
    (hrequire : t.findChild "import_require_clause" = none)
    (htarget : t.field? "source" = some target) (hclause : t.findChild "import_clause" = none) :
    importOfStatement t source =
      some (Import.whole (Text.unquote (target.text source)) (t.line source)) := by
  rw [importOfStatement, hrequire]
  simp only [Tree.fieldText, htarget, hclause, Option.map_some, Option.bind_eq_bind,
    Option.bind_some]
  rfl

theorem ImportsBy.isWildcard {clause target part : Tree} (h : ImportsBy t clause target)
    (hpart : part ∈ clause.namedChildren) (hkind : part.kind = "namespace_import") :
    ∀ i ∈ TypeScript.importOfStatement t source, i.isWildcard = true := by
  intro i hi
  rw [h.importOfStatement] at hi
  obtain rfl := Option.some.inj hi
  obtain ⟨k, hk⟩ := exists_bindClausePart_within hpart _
  exact hk.isWildcard (isWildcard_bindClausePart hkind)

theorem exists_importOfExport {target : Tree} (htarget : t.field? "source" = some target) :
    ∃ i, importOfExport t source = some i ∧
      (t.findChild "export_clause" = none → i.isWildcard = true) := by
  rw [importOfExport]
  simp only [Tree.fieldText, htarget, Option.map_some, Option.bind_eq_bind, Option.bind_some]
  split
  · next clause hclause => exact ⟨_, rfl, fun hnone => by rw [hclause] at hnone; cases hnone⟩
  · exact ⟨_, rfl, fun _ => rfl⟩

end TypeScript

/-! ## Python -/

namespace Python

theorem plainImports_eq (t : Tree) (source : Bytes) :
    plainImports t source = (importedNames t source).map fun name =>
      Import.whole (modulePath name) (t.line source) := by
  rw [plainImports, importedNames, List.map_filterMap]

/-- An import from a module is one import, unless the module is given by dots alone: then it is
one for each name. -/
theorem fromImports_cases {module : Tree} (hmodule : t.field? "module_name" = some module) :
    (¬(module.kind = "relative_import" ∧ module.findChild "dotted_name" = none) ∧
      ∃ i, fromImports t source = [i] ∧ i.isWildcard = (t.findChild "wildcard_import").isSome) ∨
    ((module.kind = "relative_import" ∧ module.findChild "dotted_name" = none) ∧
      ∃ stem, fromImports t source = (importedNames t source).map fun name =>
        ({ source := stem ++ name, line := t.line source : Import }.bind name).wildcard) := by
  rw [fromImports, hmodule]
  dsimp only
  split_ifs with hrelative
  · split
    · next path hpath =>
      have hdotted : ¬module.findChild "dotted_name" = none := by
        rw [hpath]
        exact Option.some_ne_none _
      exact .inl ⟨fun hbare => hdotted hbare.2, _, rfl, rfl⟩
    · next hnone => exact .inr ⟨⟨hrelative, hnone⟩, _, rfl⟩
  · exact .inl ⟨fun hbare => hrelative hbare.1, _, rfl, rfl⟩

end Python

/-! ## Java and C# -/

theorem Java.exists_importOf {name : Tree}
    (hname : (t.findChild "scoped_identifier").or (t.findChild "identifier") = some name) :
    ∃ i, Java.importOf t source = some i ∧
      (t.findChild "asterisk" ≠ none → i.isWildcard = true) := by
  rw [Java.importOf, hname]
  dsimp only [Option.bind_eq_bind, Option.bind_some]
  split
  · exact ⟨_, rfl, fun _ => rfl⟩
  · next hnone =>
    have hasterisk : ¬t.findChild "asterisk" ≠ none := fun hne =>
      hnone (Option.isSome_iff_ne_none.mpr hne)
    split
    all_goals exact ⟨_, rfl, fun hne => absurd hne hasterisk⟩

namespace CSharp

/-- What a directive uses is the words that are not keywords. -/
theorem usingBody_eq (raw : String) :
    usingBody raw = " ".intercalate ((directiveWords raw).filter (· ∉ keywords)) := by
  rw [usingBody, directiveWords]
  refine congrArg _ (List.filter_congr fun w _ => ?_)
  simp [keywords]

theorem usingBody_eq_empty_iff (raw : String) :
    usingBody raw = "" ↔ ∀ w ∈ directiveWords raw, w ∈ keywords := by
  have hne : ∀ w ∈ (directiveWords raw).filter (· ∉ keywords), w ≠ "" := fun w hw =>
    (Text.mem_words_iff.mp (List.mem_of_mem_filter hw)).1
  rw [usingBody_eq, Text.intercalate_eq_empty_iff hne, List.filter_eq_nil_iff]
  simp only [decide_eq_true_eq, not_not]

/-- An equals sign in what is used stands in the directive. -/
theorem mem_of_mem_usingBody {raw : String} (h : '=' ∈ (usingBody raw).toList) :
    '=' ∈ raw.toList := by
  rw [usingBody_eq] at h
  rcases Text.mem_intercalate h with hblank | ⟨w, hw, h⟩
  · exact absurd hblank (by decide)
  · have htrimmed := Text.mem_of_mem_splitBy (Text.mem_words_iff.mp (List.mem_of_mem_filter hw)).2 h
    rw [Text.trimEndBy, String.toList_ofList, List.mem_reverse] at htrimmed
    have hback := List.mem_reverse.mp ((List.dropWhile_sublist _).subset htrimmed)
    exact Text.mem_of_mem_trimBy hback

/-- A directive adds an import unless it consists of keywords: one with an equals sign has a word
that is none, and any other is left out only when nothing is used. -/
theorem importOf_cases (t : Tree) (source : Bytes) :
    (importOf t source = none ∧ ∀ w ∈ directiveWords (t.text source), w ∈ keywords) ∨
    ∃ i, importOf t source = some i ∧ (¬∀ w ∈ directiveWords (t.text source), w ∈ keywords) ∧
      ('=' ∉ (t.text source).toList → i.isWildcard = true) := by
  rw [← usingBody_eq_empty_iff (t.text source)]
  cases hsplit : Text.splitFirst '=' (usingBody (t.text source)).toList with
  | none =>
    by_cases hbody : usingBody (t.text source) = ""
    · refine .inl ⟨?_, hbody⟩
      unfold importOf
      dsimp only
      rw [hsplit]
      exact if_pos hbody
    · refine .inr ⟨Import.whole (usingBody (t.text source)) (t.line source), ?_, hbody,
        fun _ => rfl⟩
      unfold importOf
      dsimp only
      rw [hsplit]
      exact if_neg hbody
  | some sides =>
    have hequals : '=' ∈ (usingBody (t.text source)).toList := by
      by_contra hnone
      rw [Text.splitFirst_eq_none_iff.mpr hnone] at hsplit
      cases hsplit
    have hbody : usingBody (t.text source) ≠ "" := fun he => by
      rw [he, String.toList_empty] at hequals
      exact List.not_mem_nil hequals
    have hsome : (importOf t source).isSome = true := by
      unfold importOf
      dsimp only
      rw [hsplit]
      dsimp only
      split <;> rfl
    obtain ⟨i, hi⟩ := Option.isSome_iff_exists.mp hsome
    exact .inr ⟨i, hi, hbody, fun hnone => absurd (mem_of_mem_usingBody hequals) hnone⟩

end CSharp

/-! ## All statements -/

/-- A statement that adds one import, of the whole source if it imports everything. -/
theorem adds_singleton {added : List Import} {overlooked : Prop} (hadded : added = [i])
    (hkept : ¬overlooked) (hwhole : whole → i.isWildcard = true) :
    (added = [] ↔ overlooked) ∧ (whole → ∀ j ∈ added, j.isWildcard = true) := by
  rw [hadded]
  exact ⟨iff_of_false (List.cons_ne_nil _ _) hkept,
    fun h j hj => List.mem_singleton.mp hj ▸ hwhole h⟩

/-- What a statement adds: nothing exactly if it is overlooked, and only imports of the whole source
if it imports everything. -/
theorem StatesImport.adds (h : StatesImport source language n.tree whole) :
    (importsOf language source n = [] ↔ Overlooked source n.tree language) ∧
      (whole → ∀ i ∈ importsOf language source n, i.isWildcard = true) := by
  cases h with
  | @required _ _ clause target hlanguage ht hclause htarget =>
    have hadded : importsOf language source n =
        [Import.whole (Text.unquote (target.text source)) (n.tree.line source)] := by
      rw [hlanguage.importsOf, TypeScript.importOf_of_import ht,
        TypeScript.importOfStatement_required hclause htarget, Option.toList_some]
    exact adds_singleton hadded hlanguage.not_overlooked fun _ => rfl
  | @effect _ _ target hlanguage ht hrequire htarget hclause =>
    have hadded : importsOf language source n =
        [Import.whole (Text.unquote (target.text source)) (n.tree.line source)] := by
      rw [hlanguage.importsOf, TypeScript.importOf_of_import ht,
        TypeScript.importOfStatement_effect hrequire htarget hclause, Option.toList_some]
    exact adds_singleton hadded hlanguage.not_overlooked fun _ => rfl
  | clause hlanguage ht =>
    rw [hlanguage.importsOf, TypeScript.importOf_of_import ht.kind, ht.importOfStatement,
      Option.toList_some]
    exact adds_singleton rfl hlanguage.not_overlooked fun ⟨part, hpart, hkind⟩ =>
      ht.isWildcard hpart hkind _ ht.importOfStatement
  | exported hlanguage ht htarget =>
    obtain ⟨i, hi, hwhole⟩ := TypeScript.exists_importOfExport htarget
    refine adds_singleton ?_ hlanguage.not_overlooked hwhole
    rw [hlanguage.importsOf, TypeScript.importOf_of_export ht, hi, Option.toList_some]
  | modules ht hnames =>
    have hkind : n.kind = "import_statement" := ht
    rw [importsOf_python, if_pos hkind, Python.plainImports_eq]
    refine ⟨iff_of_false (mt List.map_eq_nil_iff.mp hnames) fun hlost => ?_, fun _ j hj => ?_⟩
    · exact absurd (ht.symm.trans hlost.1) (by decide)
    · obtain ⟨name, -, rfl⟩ := List.mem_map.mp hj
      rfl
  | fromModule ht hmodule hnames =>
    have hkind : n.kind = "import_from_statement" := ht
    rw [importsOf_python, if_neg (by rw [hkind]; decide)]
    rcases Python.fromImports_cases hmodule with ⟨hnamed, i, hi, hwildcard⟩ | ⟨hbare, stem, hi⟩
    · refine adds_singleton hi (fun hlost => ?_) fun hstar => ?_
      · obtain ⟨-, -, module, hmodule', hbare⟩ := hlost
        exact hnamed (Option.some.inj (hmodule'.symm.trans hmodule) ▸ hbare)
      · rw [hwildcard, Option.isSome_iff_ne_none]
        exact hstar
    · -- Dots alone: one import for each name, and none for an asterisk.
      rw [hi, List.map_eq_nil_iff]
      refine ⟨⟨fun hnone => ⟨ht, hnone, _, hmodule, hbare⟩, fun hlost => hlost.2.1⟩,
        fun _ j hj => ?_⟩
      obtain ⟨name, -, rfl⟩ := List.mem_map.mp hj
      rfl
  | package ht hpath =>
    rw [importsOf_go, Tree.fieldText, hpath, Option.map_some, Option.map_some, Option.toList_some]
    exact adds_singleton rfl id fun _ => (Import.within_bindAll ..).isWildcard rfl
  | @header _ _ path hlanguage ht hpath =>
    have hadded : importsOf language source n =
        [Import.whole (C.includeTarget path source) (n.tree.line source)] := by
      rcases hlanguage with rfl | rfl
      all_goals exact congrArg Option.toList (congrArg (Option.map _) hpath)
    refine adds_singleton hadded (fun hlost => ?_) fun _ => rfl
    rcases hlanguage with rfl | rfl
    all_goals exact hlost
  | declaration ht hname =>
    obtain ⟨i, hi, hwhole⟩ := Java.exists_importOf hname
    rw [importsOf_java, hi, Option.toList_some]
    exact adds_singleton rfl id hwhole
  | directive ht =>
    rw [importsOf_cSharp]
    rcases CSharp.importOf_cases n.tree source with ⟨hnone, hlost⟩ | ⟨i, hi, hkept, hwhole⟩
    · rw [hnone, Option.toList_none]
      exact ⟨iff_of_true rfl hlost, fun _ j hj => absurd hj List.not_mem_nil⟩
    · rw [hi, Option.toList_some]
      exact adds_singleton rfl hkept hwhole

/-- Every import statement adds its own imports to those of its file: at least one unless it is
overlooked, all of them on its line, and all of the whole source if it imports everything. -/
theorem statement_kept (hn : n ∈ root.walk (importKinds language))
    (h : StatesImport source language n.tree whole) :
    (∃ earlier later, root.walk (importKinds language) = earlier ++ n :: later ∧
      Extractor.items (language.extractor.imports root source) =
        earlier.flatMap (importsOf language source) ++ importsOf language source n ++
          later.flatMap (importsOf language source)) ∧
    (importsOf language source n = [] ↔ Overlooked source n.tree language) ∧
    ∀ i ∈ importsOf language source n,
      i.line = n.tree.line source ∧ (whole → i.isWildcard = true) := by
  obtain ⟨earlier, later, hwalk⟩ := List.append_of_mem hn
  refine ⟨⟨earlier, later, hwalk, ?_⟩, h.adds.1, fun i hi => ?_⟩
  · rw [items_imports_eq_flatMap, hwalk, List.flatMap_append, List.flatMap_cons, List.append_assoc]
  · exact ⟨line_of_mem_importsOf hi, fun hwhole => h.adds.2 hwhole i hi⟩

/-- A file that imports everything from a relative module, and nothing else. -/
def sampleStar (module : String) : Bytes := Utf8.encode ("from ." ++ module ++ " import *")

/-- The statement of the file; `path` is what its tree has for the name of the module. -/
def sampleStarStatement (module : String) (path : List Tree) : Tree :=
  .node ⟨"import_from_statement", true, none, 0, module.length + 15⟩
    [.node ⟨"from", false, none, 0, 4⟩ [],
      .node ⟨"relative_import", true, some "module_name", 5, module.length + 6⟩
        (.node ⟨"import_prefix", true, none, 5, 6⟩ [.node ⟨".", false, none, 5, 6⟩ []] :: path),
      .node ⟨"import", false, none, module.length + 7, module.length + 13⟩ [],
      .node ⟨"wildcard_import", true, none, module.length + 14, module.length + 15⟩
        [.node ⟨"*", false, none, module.length + 14, module.length + 15⟩ []]]

/-- The tree of the file. -/
def sampleStarTree (module : String) (path : List Tree) : Tree :=
  .node ⟨"module", true, none, 0, module.length + 15⟩ [sampleStarStatement module path]

/-- The statement at its place in the tree. -/
def sampleStarNode (module : String) (path : List Tree) : Node :=
  ⟨sampleStarStatement module path, [⟨sampleStarTree module path, []⟩]⟩

/-- What the tree has for the name of a module called store. -/
def sampleStorePath : List Tree :=
  [.node ⟨"dotted_name", true, none, 6, 11⟩ [.node ⟨"identifier", true, none, 6, 11⟩ []]]

theorem sampleStarNode_mem_walk (module : String) (path : List Tree) :
    sampleStarNode module path ∈
      (Node.ofTree (sampleStarTree module path)).walk (importKinds .python) := by
  rw [Node.walk, Node.walkStack]
  change _ ∈ Node.walkStack _ [sampleStarNode module path]
  rw [Node.walkStack]
  exact List.mem_cons_self

/-- Everything is imported from a module with a name. -/
theorem sample_statement_kept :
    importsOf .python (sampleStar "store") (sampleStarNode "store" sampleStorePath) ≠ [] ∧
      ∀ i ∈ importsOf .python (sampleStar "store") (sampleStarNode "store" sampleStorePath),
        i.line = 1 ∧ i.isWildcard = true := by
  have hstated : StatesImport (sampleStar "store") .python
      (sampleStarNode "store" sampleStorePath).tree
      ((sampleStarStatement "store" sampleStorePath).findChild "wildcard_import" ≠ none) :=
    .fromModule rfl rfl (.inr (by decide +kernel))
  obtain ⟨-, hlost, hadded⟩ :=
    statement_kept (sampleStarNode_mem_walk "store" sampleStorePath) hstated
  refine ⟨fun hnone => ?_, fun i hi => ⟨(hadded i hi).1.trans (by decide +kernel), ?_⟩⟩
  · obtain ⟨-, -, module, hmodule, -, hdotted⟩ := hlost.mp hnone
    obtain rfl := Option.some.inj hmodule
    exact absurd hdotted (by decide +kernel)
  · exact (hadded i hi).2 (by decide +kernel)

/-- Nothing is imported from a package that dots alone name. -/
theorem sample_overlooked :
    StatesImport (sampleStar "") .python (sampleStarNode "" []).tree
        ((sampleStarStatement "" []).findChild "wildcard_import" ≠ none) ∧
      (sampleStarStatement "" []).findChild "wildcard_import" ≠ none ∧
      sampleStarNode "" [] ∈ (Node.ofTree (sampleStarTree "" [])).walk (importKinds .python) ∧
      Extractor.items (Language.python.extractor.imports (Node.ofTree (sampleStarTree "" []))
        (sampleStar "")) = [] :=
  ⟨.fromModule rfl rfl (.inr (by decide +kernel)), by decide +kernel, sampleStarNode_mem_walk "" [],
    by decide +kernel⟩

end ChangeImpact
