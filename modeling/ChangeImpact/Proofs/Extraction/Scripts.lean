import ChangeImpact.Extraction.Project
import ChangeImpact.Proofs.Extraction.Bindings

/-!
# Files in TypeScript and JavaScript

What a file imports and exports is read statement by statement. The exports of each export statement
of its tree are among those of the file, and so is the import of each statement that takes a name or
the default export from a source.
-/

namespace ChangeImpact

open Syntax

/-- The languages whose files are read by the rules for TypeScript. -/
def Language.IsScript (language : Language) : Prop :=
  language = .typeScript ∨ language = .tsx ∨ language = .javaScript

theorem Language.isScript_typeScript : Language.typeScript.IsScript := .inl rfl

/-- A file in one of these languages, with the syntax tree of its text. -/
structure ScriptFile where
  path : String
  language : Language
  isScript : language.IsScript
  source : Bytes
  tree : Tree

theorem TypeScript.not_any_default {t : Tree} (h : ∀ c ∈ t.children, c.kind ≠ "default") :
    ¬t.children.any (·.kind = "default") = true := by
  simpa using h

namespace ScriptFile

variable {f : ScriptFile} {t : Tree} {origin name : String} {x : Export}

/-- What is read from the file. -/
def parsed (f : ScriptFile) : ParsedFile :=
  (f.language.extractor.run f.language f.path f.tree f.source).parsed

theorem imports_parsed (f : ScriptFile) :
    f.parsed.imports = TypeScript.imports (Node.ofTree f.tree) f.source := by
  obtain ⟨path, language, isScript, source, tree⟩ := f
  rcases isScript with rfl | rfl | rfl <;> rfl

theorem exports_parsed (f : ScriptFile) :
    f.parsed.exports = TypeScript.exports (Node.ofTree f.tree) f.source := by
  obtain ⟨path, language, isScript, source, tree⟩ := f
  rcases isScript with rfl | rfl | rfl <;> rfl

/-- The exports of a file are those of its export statements, in document order. -/
theorem exports_eq (f : ScriptFile) :
    f.parsed.exports = (f.tree.preorder.filter (·.kind = "export_statement")).flatMap
      (TypeScript.exportsOf · f.source) := by
  have hwalk := Node.map_tree_walk (Node.ofTree f.tree) ["export_statement"]
  have hkinds : (fun t : Tree => ["export_statement"].contains t.kind) =
      fun t => decide (t.kind = "export_statement") := by
    funext t
    simp
  rw [hkinds] at hwalk
  rw [exports_parsed, TypeScript.exports]
  change _ = List.flatMap _ ((Node.ofTree f.tree).tree.preorder.filter _)
  rw [← hwalk, List.flatMap_map]

theorem mem_exports : x ∈ f.parsed.exports ↔
    ∃ t ∈ f.tree.preorder, t.kind = "export_statement" ∧ x ∈ TypeScript.exportsOf t f.source := by
  simp only [exports_eq, List.mem_flatMap, List.mem_filter, decide_eq_true_eq, and_assoc]

/-- A tree of one of the kinds that a walk looks for stands at one of its nodes. -/
theorem exists_mem_walk {tree : Tree} {kinds : List String} (ht : t ∈ tree.preorder)
    (hkind : t.kind ∈ kinds) : ∃ n ∈ (Node.ofTree tree).walk kinds, n.tree = t := by
  rw [← List.mem_map, Node.map_tree_walk, List.mem_filter]
  exact ⟨ht, List.contains_iff_mem.mpr hkind⟩

/-- The import of a statement is among those of the file. -/
theorem exists_import {P : Import → Prop} (ht : t ∈ f.tree.preorder)
    (hkind : t.kind = "import_statement" ∨ t.kind = "export_statement")
    (h : ∀ n : Node, n.tree = t → ∃ i, TypeScript.importOf n f.source = some i ∧ P i) :
    ∃ i ∈ f.parsed.imports, P i := by
  have hkinds : t.kind ∈ ["import_statement", "export_statement", "call_expression"] := by
    rcases hkind with h | h
    all_goals rw [h]; decide
  obtain ⟨n, hn, rfl⟩ := exists_mem_walk ht hkinds
  obtain ⟨i, hi, hP⟩ := h n rfl
  refine ⟨i, ?_, hP⟩
  rw [imports_parsed, TypeScript.imports_eq]
  exact List.mem_filterMap.mpr ⟨n, hn, hi⟩

theorem exists_import_of_takes (ht : t ∈ f.tree.preorder)
    (h : TypeScript.Takes f.source t origin name) :
    ∃ i ∈ f.parsed.imports, i.source = origin ∧ name ∈ i.symbols := by
  have hkind : t.kind = "import_statement" ∨ t.kind = "export_statement" := by
    cases h with
    | imported ht => exact .inl ht.kind
    | exported ht => exact .inr ht
  exact exists_import ht hkind fun n hn =>
    TypeScript.Takes.exists_importOf (n := n) (hn.symm ▸ h)

theorem exists_import_of_takesDefault (ht : t ∈ f.tree.preorder)
    (h : TypeScript.TakesDefault f.source t origin) :
    ∃ i ∈ f.parsed.imports, i.source = origin ∧ i.isDefault = true := by
  have hkind : t.kind = "import_statement" := by
    cases h with
    | imported ht => exact ht.kind
  exact exists_import ht (.inl hkind) fun n hn =>
    TypeScript.TakesDefault.exists_importOf (n := n) (hn.symm ▸ h)

end ScriptFile

end ChangeImpact
