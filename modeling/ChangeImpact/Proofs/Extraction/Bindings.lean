import ChangeImpact.Extraction.TypeScript
import ChangeImpact.Proofs.Ordered
import ChangeImpact.Proofs.Syntax.Preorder

/-!
# What import statements bind

The import of a TypeScript statement is put together from the parts of its clause, and each part
only adds to it. So a name between braces, a name for the default export and a name for the whole
source are bound wherever they stand in the clause, whatever stands beside them.
-/

namespace ChangeImpact

open Syntax

/-! ## Adding to an import -/

/-- One import binds at least what another one does, from the same source. -/
structure Import.Within (i j : Import) : Prop where
  source : j.source = i.source
  symbols : i.symbols ⊆ j.symbols
  isDefault : i.isDefault = true → j.isDefault = true
  isWildcard : i.isWildcard = true → j.isWildcard = true

namespace Import

variable {i j k : Import} {name : String}

theorem Within.refl (i : Import) : i.Within i := ⟨rfl, List.Subset.refl _, id, id⟩

theorem Within.trans (hij : i.Within j) (hjk : j.Within k) : i.Within k where
  source := hjk.source.trans hij.source
  symbols := List.Subset.trans hij.symbols hjk.symbols
  isDefault := hjk.isDefault ∘ hij.isDefault
  isWildcard := hjk.isWildcard ∘ hij.isWildcard

theorem mem_symbols_bind {x : String} : x ∈ (i.bind name).symbols ↔ x ∈ i.symbols ∨ x = name :=
  Ordered.mem_insertOnce

theorem within_bind (i : Import) (name : String) : i.Within (i.bind name) :=
  ⟨rfl, fun _ hx => mem_symbols_bind.mpr (.inl hx), id, id⟩

theorem within_wildcard (i : Import) : i.Within i.wildcard :=
  ⟨rfl, List.Subset.refl _, id, fun _ => rfl⟩

theorem within_bindAll (i : Import) (names : List String) : i.Within (i.bindAll names) := by
  induction names generalizing i with
  | nil => exact .refl i
  | cons name names ih => exact (within_bind i name).trans (ih _)

theorem mem_symbols_bindAll {names : List String} {x : String} :
    x ∈ (i.bindAll names).symbols ↔ x ∈ i.symbols ∨ x ∈ names := by
  induction names generalizing i with
  | nil => simp [bindAll]
  | cons name names ih =>
    rw [bindAll, List.foldl_cons, ← bindAll, ih, mem_symbols_bind, List.mem_cons, or_assoc]

end Import

namespace TypeScript

variable {source : Bytes} {t clause part spec target : Tree} {i : Import} {origin name : String}

/-! ## The parts of a clause -/

theorem within_bindClausePart (i : Import) (part : Tree) :
    i.Within (bindClausePart source i part) := by
  rw [bindClausePart]
  split_ifs
  · have hdefault : i.Within { i with isDefault := true } :=
      ⟨rfl, List.Subset.refl _, fun _ => rfl, id⟩
    exact hdefault.trans (Import.within_bind _ _)
  · split
    · exact (Import.within_wildcard i).trans (Import.within_bind _ _)
    · exact Import.within_wildcard i
  · exact Import.within_bindAll ..
  · exact .refl i

theorem within_foldl_bindClausePart (i : Import) (parts : List Tree) :
    i.Within (parts.foldl (bindClausePart source) i) := by
  induction parts generalizing i with
  | nil => exact .refl i
  | cons part parts ih => exact (within_bindClausePart i part).trans (ih _)

/-- What a part adds when its turn comes stays in the import of the whole clause. -/
theorem exists_bindClausePart_within {parts : List Tree} (h : part ∈ parts) (i : Import) :
    ∃ k, (bindClausePart source k part).Within (parts.foldl (bindClausePart source) i) := by
  obtain ⟨before, after, rfl⟩ := List.append_of_mem h
  refine ⟨before.foldl (bindClausePart source) i, ?_⟩
  rw [List.foldl_append, List.foldl_cons]
  exact within_foldl_bindClausePart ..

/-- An import statement with a clause, which is not one that requires its source. -/
structure ImportsBy (t clause target : Tree) : Prop where
  kind : t.kind = "import_statement"
  require : t.findChild "import_require_clause" = none
  source : t.field? "source" = some target
  clause : t.findChild "import_clause" = some clause

/-- The import of a statement is what its clause adds to the bare source. -/
theorem ImportsBy.importOfStatement (h : ImportsBy t clause target) :
    importOfStatement t source = some (clause.namedChildren.foldl (bindClausePart source)
      { source := Text.unquote (target.text source), line := t.line source }) := by
  rw [TypeScript.importOfStatement, h.require]
  simp only [Tree.fieldText, h.source, h.clause, Option.map_some, Option.bind_eq_bind,
    Option.bind_some]

theorem isWildcard_bindClausePart (hpart : part.kind = "namespace_import") :
    (bindClausePart source i part).isWildcard = true := by
  rw [bindClausePart, if_neg (by rw [hpart]; decide), if_pos hpart]
  split <;> rfl

theorem isDefault_bindClausePart (hpart : part.kind = "identifier") :
    (bindClausePart source i part).isDefault = true := by
  rw [bindClausePart, if_pos hpart]
  rfl

theorem mem_symbols_bindClausePart (hpart : part.kind = "named_imports")
    (hspec : spec ∈ part.namedChildren) (hkind : spec.kind = "import_specifier")
    (hname : spec.fieldText "name" source = some name) :
    Text.unquote name ∈ (bindClausePart source i part).symbols := by
  rw [bindClausePart, if_neg (by rw [hpart]; decide), if_neg (by rw [hpart]; decide), if_pos hpart]
  refine Import.mem_symbols_bindAll.mpr (.inr (List.mem_filterMap.mpr ⟨spec, ?_, ?_⟩))
  · exact List.mem_filter.mpr ⟨hspec, decide_eq_true hkind⟩
  · rw [hname, Option.map_some]

/-! ## Names from a source -/

/-- A statement takes a name from a source: it lists the name between the braces of an import
clause, where it may be quoted, or of an export clause. -/
inductive Takes (source : Bytes) : Tree → String → String → Prop
  /-- By an import clause. -/
  | imported {t clause part spec target : Tree} {name : String} (ht : ImportsBy t clause target)
      (hpart : part ∈ clause.namedChildren) (hnamed : part.kind = "named_imports")
      (hspec : spec ∈ part.namedChildren) (hkind : spec.kind = "import_specifier")
      (hname : spec.fieldText "name" source = some name) :
      Takes source t (Text.unquote (target.text source)) (Text.unquote name)
  /-- By an export clause with a source. -/
  | exported {t clause spec target : Tree} {name : String} (ht : t.kind = "export_statement")
      (htarget : t.field? "source" = some target)
      (hclause : t.findChild "export_clause" = some clause) (hspec : spec ∈ clause.namedChildren)
      (hname : spec.fieldText "name" source = some name) :
      Takes source t (Text.unquote (target.text source)) name

/-- A statement takes the default export of a source, under a name of its own in front of any
braces. -/
inductive TakesDefault (source : Bytes) : Tree → String → Prop
  /-- By an import clause. -/
  | imported {t clause part target : Tree} (ht : ImportsBy t clause target)
      (hpart : part ∈ clause.namedChildren) (hname : part.kind = "identifier") :
      TakesDefault source t (Text.unquote (target.text source))

/-- The import that a node adds. -/
def importOf (n : Node) (source : Bytes) : Option Import :=
  if n.kind = "import_statement" then importOfStatement n.tree source
  else if n.kind = "export_statement" then importOfExport n.tree source
  else importOfCall n source

theorem imports_eq (root : Node) (source : Bytes) :
    imports root source =
      (root.walk ["import_statement", "export_statement", "call_expression"]).filterMap
        (importOf · source) := rfl

theorem importOf_of_import {n : Node} (hn : n.tree.kind = "import_statement") :
    importOf n source = importOfStatement n.tree source :=
  if_pos hn

theorem importOf_of_export {n : Node} (hn : n.tree.kind = "export_statement") :
    importOf n source = importOfExport n.tree source := by
  have hkind : n.kind = "export_statement" := hn
  rw [importOf, if_neg (by rw [hkind]; decide), if_pos hkind]

/-- A statement that takes a name adds an import that binds it. -/
theorem Takes.exists_importOf {n : Node} (h : Takes source n.tree origin name) :
    ∃ i, importOf n source = some i ∧ i.source = origin ∧ name ∈ i.symbols := by
  cases h with
  | @imported clause part spec target name ht hpart hnamed hspec hkind hname =>
    obtain ⟨k, hk⟩ := exists_bindClausePart_within hpart
      { source := Text.unquote (target.text source), line := n.tree.line source }
    refine ⟨_, (importOf_of_import ht.kind).trans ht.importOfStatement, ?_, ?_⟩
    · exact (within_foldl_bindClausePart ..).source
    · exact hk.symbols (mem_symbols_bindClausePart hnamed hspec hkind hname)
  | exported ht htarget hclause hspec hname =>
    rw [importOf_of_export ht, importOfExport]
    simp only [Tree.fieldText, htarget, hclause, Option.map_some, Option.bind_eq_bind,
      Option.bind_some]
    refine ⟨_, rfl, (Import.within_bindAll ..).source, ?_⟩
    exact Import.mem_symbols_bindAll.mpr (.inr (List.mem_filterMap.mpr ⟨_, hspec, hname⟩))

/-- A statement that takes the default export adds a default import. -/
theorem TakesDefault.exists_importOf {n : Node} (h : TakesDefault source n.tree origin) :
    ∃ i, importOf n source = some i ∧ i.source = origin ∧ i.isDefault = true := by
  cases h with
  | @imported clause part target ht hpart hname =>
    obtain ⟨k, hk⟩ := exists_bindClausePart_within hpart
      { source := Text.unquote (target.text source), line := n.tree.line source }
    refine ⟨_, (importOf_of_import ht.kind).trans ht.importOfStatement, ?_, ?_⟩
    · exact (within_foldl_bindClausePart ..).source
    · exact hk.isDefault (isDefault_bindClausePart hname)

end TypeScript

end ChangeImpact
