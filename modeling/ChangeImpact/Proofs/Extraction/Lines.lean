import ChangeImpact.Extraction.Project
import ChangeImpact.Proofs.Syntax.Preorder

/-!
# Lines of extracted symbols

Every reading of a file visits nodes in document order and places what it finds at a node on
the line on which that node starts. So in the readings of all languages the lines ascend, they
are lines of the source, and no definition ends before it starts.
-/

namespace ChangeImpact

open Syntax

variable {α β : Type} {source : Bytes}

/-! ## Lines of a source -/

theorem Syntax.Tree.lineAt_le {a b : Nat} (h : a ≤ b) :
    Tree.lineAt source a ≤ Tree.lineAt source b :=
  Nat.succ_le_succ ((List.take_sublist_take_left h).count_le _)

theorem Syntax.Tree.lineAt_bounds (offset : Nat) :
    1 ≤ Tree.lineAt source offset ∧
      Tree.lineAt source offset ≤ source.count Tree.lineFeed + 1 :=
  ⟨Nat.le_add_left .., Nat.succ_le_succ ((List.take_sublist ..).count_le _)⟩

/-- The lines do not descend, and they are lines of the source: there is one more of these than
there are line feeds. -/
structure LinesAscend (source : Bytes) (lines : List Nat) : Prop where
  ascending : lines.Pairwise (· ≤ ·)
  inside : ∀ l ∈ lines, 1 ≤ l ∧ l ≤ source.count Tree.lineFeed + 1

theorem LinesAscend.sublist {lines lines' : List Nat} (h : LinesAscend source lines)
    (hsub : lines'.Sublist lines) : LinesAscend source lines' :=
  ⟨h.ascending.sublist hsub, fun l hl => h.inside l (hsub.subset hl)⟩

/-- What places in document order contribute has ascending lines if all of it is on the line on
which its place starts. -/
theorem LinesAscend.flatMap {places : List β} {t : β → Tree}
    (hplaces : places.Pairwise fun a b => (t a).label.start ≤ (t b).label.start)
    {f : β → List α} {line : α → Nat} (hf : ∀ b, ∀ x ∈ f b, line x = (t b).line source) :
    LinesAscend source ((places.flatMap f).map line) := by
  constructor
  · rw [List.pairwise_map, List.pairwise_flatMap]
    constructor
    · intro b _
      refine List.pairwise_iff_forall_sublist.mpr fun {x y} hxy => ?_
      exact Nat.le_of_eq ((hf b x (hxy.subset (by simp))).trans (hf b y (hxy.subset (by simp))).symm)
    · refine hplaces.imp fun {a b} hab x hx y hy => ?_
      rw [hf a x hx, hf b y hy]
      exact Tree.lineAt_le hab
  · intro l hl
    obtain ⟨x, hx, rfl⟩ := List.mem_map.mp hl
    obtain ⟨b, -, hx⟩ := List.mem_flatMap.mp hx
    rw [hf b x hx]
    exact Tree.lineAt_bounds _

theorem LinesAscend.filterMap {places : List β} {t : β → Tree}
    (hplaces : places.Pairwise fun a b => (t a).label.start ≤ (t b).label.start)
    {f : β → Option α} {line : α → Nat}
    (hf : ∀ b x, f b = some x → line x = (t b).line source) :
    LinesAscend source ((places.filterMap f).map line) := by
  rw [List.filterMap_eq_flatMap_toList]
  exact .flatMap hplaces fun b x hx => hf b x (Option.mem_toList.mp hx)

/-! ## Readings -/

/-- The lines of what a reading finds in a nested tree ascend. -/
def Reading.Ascends (r : Reading α) (line : α → Nat) : Prop :=
  ∀ (root : Node) (source : Bytes), root.tree.Nested →
    LinesAscend source ((Extractor.items (r root source)).map line)

/-- Definitions start on ascending lines, and none ends before it starts. -/
structure DefinitionsAscend (source : Bytes) (ds : List Definition) : Prop where
  lines : LinesAscend source (ds.map (·.startLine))
  spans : ∀ d ∈ ds, d.startLine ≤ d.endLine

/-- The rules of a language place what they find in a nested tree on ascending lines. -/
structure Extractor.Locates (e : Extractor) : Prop where
  imports : e.imports.Ascends (·.line)
  exports : e.exports.Ascends (·.line)
  definitions : ∀ (root : Node) (source : Bytes), root.tree.Nested →
    DefinitionsAscend source (items (e.definitions root source))
  calls : e.calls.Ascends (·.line)

/-- The definition covers the lines of a tree. -/
structure Definition.Covers (d : Definition) (t : Tree) (source : Bytes) : Prop where
  startLine : d.startLine = t.line source
  endLine : d.endLine = t.endLine source

theorem DefinitionsAscend.sublist {ds ds' : List Definition} (h : DefinitionsAscend source ds)
    (hsub : ds'.Sublist ds) : DefinitionsAscend source ds' where
  lines := h.lines.sublist (hsub.map _)
  spans d hd := h.spans d (hsub.subset hd)

section Walk

variable {root : Node} (hroot : root.tree.Nested) {kinds : List String}
include hroot

theorem LinesAscend.flatMap_walk {f : Node → List α} {line : α → Nat}
    (hf : ∀ n, ∀ x ∈ f n, line x = n.tree.line source) :
    LinesAscend source (((root.walk kinds).flatMap f).map line) :=
  .flatMap (Node.pairwise_walk hroot kinds) hf

theorem LinesAscend.filterMap_walk {f : Node → Option α} {line : α → Nat}
    (hf : ∀ n x, f n = some x → line x = n.tree.line source) :
    LinesAscend source (((root.walk kinds).filterMap f).map line) :=
  .filterMap (Node.pairwise_walk hroot kinds) hf

/-- Definitions that cover the nodes at which they are found ascend. -/
theorem DefinitionsAscend.filterMap_walk {f : Node → Option Definition}
    (hf : ∀ n d, f n = some d → d.Covers n.tree source) :
    DefinitionsAscend source ((root.walk kinds).filterMap f) where
  lines := .filterMap_walk hroot fun n d hd => (hf n d hd).startLine
  spans d hd := by
    obtain ⟨n, hn, hd⟩ := List.mem_filterMap.mp hd
    rw [(hf n d hd).startLine, (hf n d hd).endLine]
    exact Tree.lineAt_le (hroot _ (Node.mem_preorder_of_mem_walk hn)).range

end Walk

/-! ## Imports -/

namespace Import

@[simp] theorem line_bind (i : Import) (name : String) : (i.bind name).line = i.line := rfl

@[simp] theorem line_bindAll (i : Import) (names : List String) :
    (i.bindAll names).line = i.line := by
  induction names generalizing i with
  | nil => rfl
  | cons name names ih => exact ih (i.bind name)

@[simp] theorem line_wildcard (i : Import) : i.wildcard.line = i.line := rfl

@[simp] theorem line_whole (target : String) (line : Nat) : (whole target line).line = line := rfl

end Import

/-! ## C and C++ -/

theorem C.line_of_exportOf {n : Node} {e : Export} (h : C.exportOf n source = some e) :
    e.line = n.tree.line source := by
  rw [C.exportOf] at h
  split at h
  · cases h
  split at h
  · obtain ⟨name, -, rfl⟩ := Option.map_eq_some_iff.mp h
    rfl
  split at h
  · cases h
  obtain ⟨declarator, -, h⟩ := Option.bind_eq_some_iff.mp h
  obtain ⟨name, -, h⟩ := Option.bind_eq_some_iff.mp h
  cases h
  rfl

theorem C.covers_of_definitionOf {n : Node} {d : Definition}
    (h : C.definitionOf n source = some d) : d.Covers n.tree source := by
  rw [C.definitionOf] at h
  split at h
  · obtain ⟨name, -, rfl⟩ := Option.map_eq_some_iff.mp h
    exact ⟨rfl, rfl⟩
  obtain ⟨declarator, -, h⟩ := Option.bind_eq_some_iff.mp h
  obtain ⟨qualified, -, h⟩ := Option.bind_eq_some_iff.mp h
  cases h
  exact ⟨rfl, rfl⟩

theorem C.locates : C.extractor.Locates where
  imports root source h := .filterMap_walk h fun n i hi => by
    obtain ⟨path, -, rfl⟩ := Option.map_eq_some_iff.mp hi
    rfl
  exports root source h := .filterMap_walk h fun n e he => C.line_of_exportOf he
  definitions root source h := .filterMap_walk h fun n d hd => C.covers_of_definitionOf hd
  calls root source h := .filterMap_walk h fun n c hc => by
    obtain ⟨function, -, rfl⟩ := Option.map_eq_some_iff.mp hc
    rfl

/-! ## C# -/

theorem CSharp.line_of_importOf {t : Tree} {i : Import} (h : CSharp.importOf t source = some i) :
    i.line = t.line source := by
  unfold CSharp.importOf at h
  dsimp only at h
  split at h
  · split at h
    all_goals
      obtain rfl := Option.some.inj h
      exact Import.line_bind ..
  · split_ifs at h
    obtain rfl := Option.some.inj h
    exact Import.line_whole ..

theorem CSharp.locates : CSharp.extractor.Locates where
  imports root source h := .filterMap_walk h fun n i hi => CSharp.line_of_importOf hi
  exports root source h := .filterMap_walk h fun n e he => by
    split at he
    · cases he
    · obtain ⟨name, -, rfl⟩ := Option.map_eq_some_iff.mp he
      dsimp only
      split_ifs <;> rfl
  definitions root source h := .filterMap_walk h fun n d hd => by
    obtain ⟨name, -, rfl⟩ := Option.map_eq_some_iff.mp hd
    exact ⟨rfl, rfl⟩
  calls root source h := .filterMap_walk h fun n c hc => by
    obtain ⟨function, -, rfl⟩ := Option.map_eq_some_iff.mp hc
    rfl

/-! ## Go -/

theorem Go.locates : Go.extractor.Locates where
  imports root source h := .filterMap_walk h fun n i hi => by
    obtain ⟨raw, -, rfl⟩ := Option.map_eq_some_iff.mp hi
    exact Import.line_bindAll ..
  exports root source h := .flatMap_walk h fun n e he => by
    obtain ⟨name, -, rfl⟩ := List.mem_map.mp he
    rfl
  definitions root source h := .filterMap_walk h fun n d hd => by
    obtain ⟨name, -, rfl⟩ := Option.map_eq_some_iff.mp hd
    dsimp only
    split_ifs <;> exact ⟨rfl, rfl⟩
  calls root source h := .filterMap_walk h fun n c hc => by
    obtain ⟨callee, -, rfl⟩ := Option.map_eq_some_iff.mp hc
    rfl

/-! ## Java -/

theorem Java.line_of_importOf {t : Tree} {i : Import} (h : Java.importOf t source = some i) :
    i.line = t.line source := by
  obtain ⟨name, -, h⟩ := Option.bind_eq_some_iff.mp h
  dsimp only at h
  split at h
  · cases h
    rfl
  · split at h
    all_goals
      cases h
      rfl

theorem Java.locates : Java.extractor.Locates where
  imports root source h := .filterMap_walk h fun n i hi => Java.line_of_importOf hi
  exports root source h := .filterMap_walk h fun n e he => by
    split at he
    · cases he
    · obtain ⟨name, -, rfl⟩ := Option.map_eq_some_iff.mp he
      rfl
  definitions root source h := .filterMap_walk h fun n d hd => by
    obtain ⟨name, -, rfl⟩ := Option.map_eq_some_iff.mp hd
    exact ⟨rfl, rfl⟩
  calls root source h := .filterMap_walk h fun n c hc => by
    obtain ⟨callee, -, rfl⟩ := Option.map_eq_some_iff.mp hc
    rfl

/-! ## PHP -/

theorem Php.line_importOfUse (t : Tree) : (Php.importOfUse t source).line = t.line source := by
  unfold Php.importOfUse
  dsimp only
  split <;> exact Import.line_bind ..

theorem Php.locates : Php.extractor.Locates where
  imports root source h := .filterMap_walk h fun n i hi => by
    split_ifs at hi
    · obtain rfl := Option.some.inj hi
      exact Php.line_importOfUse ..
    · obtain ⟨literal, -, rfl⟩ := Option.map_eq_some_iff.mp hi
      exact Import.line_whole ..
  exports root source h := .filterMap_walk h fun n e he => by
    obtain ⟨name, -, he⟩ := Option.bind_eq_some_iff.mp he
    split_ifs at he
    all_goals
      obtain rfl := Option.some.inj he
      rfl
  definitions root source h := .filterMap_walk h fun n d hd => by
    obtain ⟨name, -, rfl⟩ := Option.map_eq_some_iff.mp hd
    dsimp only
    split_ifs <;> exact ⟨rfl, rfl⟩
  calls root source h := .filterMap_walk h fun n c hc => by
    obtain ⟨callee, -, rfl⟩ := Option.map_eq_some_iff.mp hc
    rfl

/-! ## Python -/

/-- Of each statement of the module the list takes at most one tree at or below it. -/
theorem Python.pairwise_topLevel {root : Tree} (h : root.Nested) :
    (Python.topLevel root).Pairwise fun a b => a.label.start ≤ b.label.start := by
  have hbelow {c t : Tree}
      (ht : (if c.kind = "function_definition" ∨ c.kind = "class_definition" then some c
        else if c.kind = "decorated_definition" then c.field? "definition"
        else none) = some t) : t ∈ c.preorder := by
    split_ifs at ht
    · obtain rfl := Option.some.inj ht
      exact c.self_mem_preorder
    · exact Tree.mem_preorder_of_mem_children (List.mem_of_find?_eq_some ht) t.self_mem_preorder
  rw [Python.topLevel, List.pairwise_filterMap]
  exact (h.pairwise_children.filter _).imp fun {a b} hab u hu v hv =>
    hab u (hbelow hu) v (hbelow hv)

theorem Python.line_of_mem_plainImports {t : Tree} {i : Import}
    (h : i ∈ Python.plainImports t source) : i.line = t.line source := by
  obtain ⟨entry, -, h⟩ := List.mem_filterMap.mp h
  obtain ⟨name, -, rfl⟩ := Option.map_eq_some_iff.mp h
  exact Import.line_whole ..

theorem Python.line_of_mem_fromImports {t : Tree} {i : Import}
    (h : i ∈ Python.fromImports t source) : i.line = t.line source := by
  have hsingle {target : String} {names : List String} {isWildcard : Bool}
      (h : i ∈ [{ ({ source := target, line := t.line source : Import }.bindAll names) with
        isWildcard }]) : i.line = t.line source := by
    rw [List.mem_singleton.mp h]
    exact Import.line_bindAll ..
  unfold Python.fromImports at h
  dsimp only at h
  split at h
  · cases h
  split_ifs at h
  · split at h
    · exact hsingle h
    · obtain ⟨name, -, rfl⟩ := List.mem_map.mp h
      rw [Import.line_wildcard, Import.line_bind]
  · exact hsingle h

theorem Python.locates : Python.extractor.Locates where
  imports root source h := .flatMap_walk h fun n i hi => by
    split_ifs at hi
    · exact Python.line_of_mem_plainImports hi
    · exact Python.line_of_mem_fromImports hi
  exports root source h := .filterMap (t := id) (Python.pairwise_topLevel h) fun t e he => by
    obtain ⟨name, -, he⟩ := Option.bind_eq_some_iff.mp he
    split_ifs at he
    all_goals
      obtain rfl := Option.some.inj he
      rfl
  definitions root source h := .filterMap_walk h fun n d hd => by
    obtain ⟨name, -, rfl⟩ := Option.map_eq_some_iff.mp hd
    exact ⟨rfl, rfl⟩
  calls root source h := .filterMap_walk h fun n c hc => by
    obtain ⟨function, -, hc⟩ := Option.bind_eq_some_iff.mp hc
    split_ifs at hc
    obtain rfl := Option.some.inj hc
    rfl

/-! ## Ruby -/

theorem Ruby.line_of_mem_importsOfCall {t : Tree} {i : Import}
    (h : i ∈ Ruby.importsOfCall t source) : i.line = t.line source := by
  unfold Ruby.importsOfCall at h
  split_ifs at h
  · cases h
  split at h
  · dsimp only at h
    split_ifs at h
    · obtain ⟨content, -, rfl⟩ := Option.map_eq_some_iff.mp (Option.mem_toList.mp h)
      exact Import.line_whole ..
    · obtain ⟨constant, -, rfl⟩ := List.mem_map.mp h
      exact Import.line_bind ..
    · cases h
  · cases h

theorem Ruby.locates : Ruby.extractor.Locates where
  imports root source h := .flatMap_walk h fun n i hi => Ruby.line_of_mem_importsOfCall hi
  exports root source h := .filterMap_walk h fun n e he => by
    obtain ⟨name, -, he⟩ := Option.bind_eq_some_iff.mp he
    split_ifs at he
    all_goals
      obtain rfl := Option.some.inj he
      rfl
  definitions root source h := .filterMap_walk h fun n d hd => by
    obtain ⟨name, -, rfl⟩ := Option.map_eq_some_iff.mp hd
    exact ⟨rfl, rfl⟩
  calls root source h := .filterMap_walk h fun n c hc => by
    obtain ⟨callee, -, rfl⟩ := Option.map_eq_some_iff.mp hc
    rfl

/-! ## Rust -/

theorem Rust.line_addLeaf (leaf : Rust.UseLeaf) (i : Import) :
    (Rust.addLeaf leaf i).line = i.line := by
  rw [Rust.addLeaf]
  split
  · exact Import.line_bind ..
  · exact Import.line_wildcard ..

/-- Grouping the leaves of a declaration keeps all imports on its line. -/
theorem Rust.line_of_mem_groupLeaf {line : Nat} {imports : List Import} {leaf : Rust.UseLeaf}
    (himports : ∀ i ∈ imports, i.line = line) :
    ∀ i ∈ Rust.groupLeaf line imports leaf, i.line = line := by
  intro i hi
  rw [Rust.groupLeaf] at hi
  split_ifs at hi
  · obtain ⟨j, hj, rfl⟩ := List.mem_map.mp hi
    split_ifs
    · exact (Rust.line_addLeaf leaf j).trans (himports j hj)
    · exact himports j hj
  · rcases List.mem_append.mp hi with hi | hi
    · exact himports i hi
    · rw [List.mem_singleton.mp hi]
      exact Rust.line_addLeaf ..

theorem Rust.line_of_mem_importsOfUse {t : Tree} {i : Import}
    (h : i ∈ Rust.importsOfUse t source) : i.line = t.line source := by
  have hfold (leaves : List Rust.UseLeaf) (imports : List Import)
      (himports : ∀ i ∈ imports, i.line = t.line source) :
      ∀ i ∈ leaves.foldl (Rust.groupLeaf (t.line source)) imports, i.line = t.line source := by
    induction leaves generalizing imports with
    | nil => exact himports
    | cons leaf leaves ih => exact ih _ (Rust.line_of_mem_groupLeaf himports)
  rw [Rust.importsOfUse] at h
  split at h
  · cases h
  · exact hfold _ [] (by simp) i h

theorem Rust.locates : Rust.extractor.Locates where
  imports root source h := .flatMap_walk h fun n i hi => Rust.line_of_mem_importsOfUse hi
  exports root source h := .filterMap_walk h fun n e he => by
    split_ifs at he
    obtain ⟨name, -, rfl⟩ := Option.map_eq_some_iff.mp he
    rfl
  definitions root source h := .filterMap_walk h fun n d hd => by
    obtain ⟨name, -, rfl⟩ := Option.map_eq_some_iff.mp hd
    exact ⟨rfl, rfl⟩
  calls root source h := .filterMap_walk h fun n c hc => by
    obtain ⟨callee, -, rfl⟩ := Option.map_eq_some_iff.mp hc
    rfl

/-! ## TypeScript, TSX and JavaScript -/

theorem TypeScript.line_bindClausePart (i : Import) (part : Tree) :
    (TypeScript.bindClausePart source i part).line = i.line := by
  unfold TypeScript.bindClausePart
  split_ifs
  · exact Import.line_bind ..
  · split
    · rw [Import.line_bind, Import.line_wildcard]
    · exact Import.line_wildcard ..
  · exact Import.line_bindAll ..
  · rfl

theorem TypeScript.line_of_importOfStatement {t : Tree} {i : Import}
    (h : TypeScript.importOfStatement t source = some i) : i.line = t.line source := by
  have hclause (parts : List Tree) (i : Import) :
      (parts.foldl (TypeScript.bindClausePart source) i).line = i.line := by
    induction parts generalizing i with
    | nil => rfl
    | cons part parts ih => exact (ih _).trans (TypeScript.line_bindClausePart i part)
  rw [TypeScript.importOfStatement] at h
  split at h
  · obtain ⟨target, -, rfl⟩ := Option.map_eq_some_iff.mp h
    exact Import.line_whole ..
  · obtain ⟨target, -, h⟩ := Option.bind_eq_some_iff.mp h
    dsimp only at h
    split at h
    · obtain rfl := Option.some.inj h
      exact Import.line_wildcard ..
    · obtain rfl := Option.some.inj h
      exact hclause ..

theorem TypeScript.line_of_importOfExport {t : Tree} {i : Import}
    (h : TypeScript.importOfExport t source = some i) : i.line = t.line source := by
  obtain ⟨target, -, h⟩ := Option.bind_eq_some_iff.mp h
  dsimp only at h
  split at h
  · obtain rfl := Option.some.inj h
    exact Import.line_bindAll ..
  · obtain rfl := Option.some.inj h
    exact Import.line_wildcard ..

theorem TypeScript.line_of_importOfCall {n : Node} {i : Import}
    (h : TypeScript.importOfCall n source = some i) : i.line = n.tree.line source := by
  obtain ⟨function, -, h⟩ := Option.bind_eq_some_iff.mp h
  split_ifs at h
  obtain ⟨arguments, -, h⟩ := Option.bind_eq_some_iff.mp h
  obtain ⟨first, -, h⟩ := Option.bind_eq_some_iff.mp h
  split_ifs at h
  dsimp only at h
  split at h
  · obtain rfl := Option.some.inj h
    exact Import.line_bindAll ..
  · obtain rfl := Option.some.inj h
    exact Import.line_wildcard ..

theorem TypeScript.line_of_variableExport {line : Nat} {declarator : Tree} {e : Export}
    (h : TypeScript.variableExport line source declarator = some e) : e.line = line := by
  obtain ⟨name, -, h⟩ := Option.bind_eq_some_iff.mp h
  split_ifs at h
  obtain rfl := Option.some.inj h
  rfl

theorem TypeScript.line_of_mem_declarationExports {d : Tree} {line : Nat} {e : Export}
    (h : e ∈ TypeScript.declarationExports d line source) : e.line = line := by
  have hnamed {kind : SymbolKind} {signature : String → String}
      (h : e ∈ ((d.fieldText "name" source).map fun name =>
        { name, kind, signature := signature name, line : Export }).toList) : e.line = line := by
    obtain ⟨name, -, rfl⟩ := Option.map_eq_some_iff.mp (Option.mem_toList.mp h)
    rfl
  unfold TypeScript.declarationExports at h
  dsimp only at h
  split_ifs at h
  · exact hnamed h
  · exact hnamed h
  · exact hnamed h
  · exact hnamed h
  · obtain ⟨declarator, -, h⟩ := List.mem_filterMap.mp h
    exact TypeScript.line_of_variableExport h
  · cases h

theorem TypeScript.line_of_mem_exportsOf {t : Tree} {e : Export}
    (h : e ∈ TypeScript.exportsOf t source) : e.line = t.line source := by
  rw [TypeScript.exportsOf] at h
  split at h
  · rw [List.mem_singleton.mp h]
    rfl
  split at h
  · exact TypeScript.line_of_mem_declarationExports h
  split at h
  · cases h
  split at h
  · obtain ⟨spec, -, h⟩ := List.mem_filterMap.mp h
    obtain ⟨name, -, rfl⟩ := Option.map_eq_some_iff.mp h
    rfl
  · cases h

theorem TypeScript.covers_of_definitionOf {n : Node} {d : Definition}
    (h : TypeScript.definitionOf n source = some d) : d.Covers n.tree source := by
  obtain ⟨name, -, rfl⟩ := Option.map_eq_some_iff.mp h
  dsimp only
  split_ifs <;> exact ⟨rfl, rfl⟩

theorem TypeScript.firstPerLine_sublist (seen : List (String × Nat)) (ds : List Definition) :
    (TypeScript.firstPerLine seen ds).Sublist ds := by
  induction ds generalizing seen with
  | nil => exact List.Sublist.refl []
  | cons d ds ih =>
    rw [TypeScript.firstPerLine]
    split_ifs
    · exact (ih seen).cons d
    · exact (ih _).cons_cons d

theorem TypeScript.locates : TypeScript.extractor.Locates where
  imports root source h := .filterMap_walk h fun n i hi => by
    split_ifs at hi
    · exact TypeScript.line_of_importOfStatement hi
    · exact TypeScript.line_of_importOfExport hi
    · exact TypeScript.line_of_importOfCall hi
  exports root source h := .flatMap_walk h fun n e he => TypeScript.line_of_mem_exportsOf he
  definitions root source h :=
    (DefinitionsAscend.filterMap_walk h fun n d hd =>
      TypeScript.covers_of_definitionOf hd).sublist (TypeScript.firstPerLine_sublist ..)
  calls root source h := .filterMap_walk h fun n c hc => by
    obtain ⟨callee, -, rfl⟩ := Option.map_eq_some_iff.mp hc
    rfl

/-! ## All languages -/

theorem Language.locates (language : Language) : language.extractor.Locates := by
  cases language with
  | typeScript => exact TypeScript.locates
  | tsx => exact TypeScript.locates
  | javaScript => exact TypeScript.locates
  | python => exact Python.locates
  | go => exact Go.locates
  | rust => exact Rust.locates
  | java => exact Java.locates
  | c => exact C.locates
  | cpp => exact C.locates
  | cSharp => exact CSharp.locates
  | php => exact Php.locates
  | ruby => exact Ruby.locates

/-- What was extracted from a source lies on its lines, in their order. -/
structure ParsedFile.Located (f : ParsedFile) (source : Bytes) : Prop where
  imports : LinesAscend source (f.imports.map (·.line))
  exports : LinesAscend source (f.exports.map (·.line))
  definitions : DefinitionsAscend source f.definitions
  calls : LinesAscend source (f.calls.map (·.line))

/-- Whatever the language, the source and its nested tree, erroneous or not: what is extracted
is listed by ascending lines of the source, and definitions end no earlier than they start. -/
theorem extracted_located (language : Language) (path : String) (tree : Tree) (source : Bytes)
    (h : tree.Nested) : (language.extractor.run language path tree source).parsed.Located source :=
  have hroot : (Node.ofTree tree).tree.Nested := h
  { imports := language.locates.imports _ source hroot
    exports := language.locates.exports _ source hroot
    definitions := language.locates.definitions _ source hroot
    calls := language.locates.calls _ source hroot }

/-- A module that calls a function and then defines one, under a decorator, that calls it. -/
def sampleModule : Bytes := Utf8.encode "f()\n@d\ndef g():\n f()"

/-- The tree of the module. -/
def sampleModuleTree : Tree :=
  let call (start : Nat) : Tree :=
    .node ⟨"call", true, none, start, start + 3⟩
      [.node ⟨"identifier", true, some "function", start, start + 1⟩ []]
  .node ⟨"module", true, none, 0, 20⟩
    [.node ⟨"expression_statement", true, none, 0, 3⟩ [call 0],
      .node ⟨"decorated_definition", true, none, 4, 20⟩
        [.node ⟨"decorator", true, none, 4, 6⟩ [],
          .node ⟨"function_definition", true, some "definition", 7, 20⟩
            [.node ⟨"identifier", true, some "name", 11, 12⟩ [],
              .node ⟨"block", true, some "body", 17, 20⟩ [call 17]]]]

/-- The symbols of the module stand on their lines. -/
theorem sample_extracted_located :
    let parsed := (Language.python.extractor.run .python "m.py" sampleModuleTree sampleModule).parsed
    sampleModuleTree.Nested ∧ parsed.Located sampleModule ∧ parsed.exports.map (·.line) = [3] ∧
      parsed.definitions.map (fun d => (d.startLine, d.endLine)) = [(3, 4)] ∧
        parsed.calls.map (·.line) = [1, 4] :=
  have hnested : sampleModuleTree.Nested := by decide
  ⟨hnested, extracted_located .python "m.py" sampleModuleTree sampleModule hnested,
    by decide +kernel, by decide +kernel, by decide +kernel⟩

end ChangeImpact
