import ChangeImpact.Propagation
import ChangeImpact.Proofs.Ordered
import Mathlib.Data.List.Basic
import Mathlib.Data.List.Perm.Basic

/-!
# Which exports a draft changes

A file may export a name several times, as overloads do. A draft is compared with the committed
state by the last export of each name: a name is changed when the last exports of it differ. That
is a change of what the file offers under the name, in whatever order, as long as the exports
before the last are the same ones. It is not when one of these changes, or when exports change
their places.
-/

namespace ChangeImpact

/-! ## What a file offers under a name -/

/-- What users of an export see. -/
def Export.shape (e : Export) : SymbolKind × String := (e.kind, e.signature)

/-- What a file offers under a name, in source order. -/
def ParsedFile.offers (f : ParsedFile) (name : String) : List (SymbolKind × String) :=
  (f.exports.filter (·.name = name)).map Export.shape

variable {committed draft f : ParsedFile} {name : String}

theorem ParsedFile.offers_ne_nil_iff : f.offers name ≠ [] ↔ ∃ e ∈ f.exports, e.name = name := by
  rw [offers, ne_eq, List.map_eq_nil_iff, List.filter_eq_nil_iff]
  simp only [decide_eq_true_eq, not_forall, not_not, exists_prop]

theorem ParsedFile.mem_exportNames : name ∈ f.exportNames ↔ ∃ e ∈ f.exports, e.name = name := by
  rw [exportNames, Ordered.mem_ofList, List.mem_map]

/-- The last export of a name is the last thing that is offered under it. -/
theorem shape_lastExport? : (lastExport? f name).map Export.shape = (f.offers name).getLast? := by
  rw [ParsedFile.offers, List.getLast?_map, List.getLast?_eq_head?_reverse, ← List.filter_reverse,
    List.head?_filter, lastExport?]

/-- Two exports count as the same when both are there and users see the same. -/
theorem sameExport_iff {before after : Option Export} :
    sameExport before after = true ↔
      before.map Export.shape = after.map Export.shape ∧ before.map Export.shape ≠ none := by
  cases before with
  | none => simp [sameExport]
  | some a =>
    cases after with
    | none => simp [sameExport]
    | some b => simp [sameExport, Export.shape]

/-- A name is changed when the last things offered under it differ. -/
theorem mem_changedExports_some :
    name ∈ changedExports (some committed) draft ↔
      (committed.offers name).getLast? ≠ (draft.offers name).getLast? := by
  have hnames : name ∈ Ordered.union committed.exportNames draft.exportNames ↔
      ¬((committed.offers name).getLast? = none ∧ (draft.offers name).getLast? = none) := by
    rw [Ordered.mem_union, ParsedFile.mem_exportNames, ParsedFile.mem_exportNames,
      ← ParsedFile.offers_ne_nil_iff, ← ParsedFile.offers_ne_nil_iff, List.getLast?_eq_none_iff,
      List.getLast?_eq_none_iff, not_and_or]
  rw [changedExports, List.mem_filter, hnames, Bool.not_eq_true', ← Bool.not_eq_true,
    sameExport_iff, shape_lastExport?, shape_lastExport?]
  constructor
  · rintro ⟨hsome, hdiffer⟩ heq
    exact hdiffer ⟨heq, fun hnone => hsome ⟨hnone, heq ▸ hnone⟩⟩
  · intro hne
    exact ⟨fun hnone => hne (hnone.1.trans hnone.2.symm), fun hsame => hne hsame.1⟩

/-- Against itself nothing is changed, however often a name is exported. -/
theorem changedExports_self (f : ParsedFile) : changedExports (some f) f = [] :=
  List.eq_nil_iff_forall_not_mem.mpr fun _ hname => mem_changedExports_some.mp hname rfl

/-! ## Lists that differ in their last members -/

section Last

variable {α : Type} {xs ys : List α}

/-- Two lists with the same members before the last are permutations of each other exactly when
they end alike. -/
theorem perm_iff_of_dropLast_perm (h : xs.dropLast.Perm ys.dropLast) :
    xs.Perm ys ↔ xs.getLast? = ys.getLast? := by
  rcases xs.eq_nil_or_concat with rfl | ⟨before, x, rfl⟩
  · rw [List.nil_perm, eq_comm (a := List.getLast? []), List.getLast?_nil,
      List.getLast?_eq_none_iff]
  · rcases ys.eq_nil_or_concat with rfl | ⟨before', y, rfl⟩
    · simp
    · rw [List.concat_eq_append, List.concat_eq_append, List.dropLast_concat,
        List.dropLast_concat] at h
      rw [List.concat_eq_append, List.concat_eq_append, List.getLast?_concat,
        List.getLast?_concat, Option.some.injEq, (h.append_right [x]).congr_left,
        List.perm_append_left_iff, List.singleton_perm_singleton]

end Last

/-- One of the two states offers nothing under a name, or both offer the same before the last. -/
def EndsDecide (before after : List (SymbolKind × String)) : Prop :=
  before = [] ∨ after = [] ∨ before.dropLast.Perm after.dropLast

theorem EndsDecide.perm_iff {before after : List (SymbolKind × String)}
    (h : EndsDecide before after) : before.Perm after ↔ before.getLast? = after.getLast? := by
  rcases h with rfl | rfl | h
  · rw [List.nil_perm, List.getLast?_nil, eq_comm (a := none), List.getLast?_eq_none_iff]
  · rw [List.perm_nil, List.getLast?_nil, List.getLast?_eq_none_iff]
  · exact perm_iff_of_dropLast_perm h

/-- Without a committed state every exported name is changed. With one a name is changed when
the last things offered under it differ; this tells whether the offers differ as multisets, for
every name of which the ends decide, such as one that is exported at most once in each state. -/
theorem changed_by_last_export (committed draft : ParsedFile) (name : String) :
    (name ∈ changedExports none draft ↔ ∃ e ∈ draft.exports, e.name = name) ∧
    (name ∈ changedExports (some committed) draft ↔
      (committed.offers name).getLast? ≠ (draft.offers name).getLast?) ∧
    (EndsDecide (committed.offers name) (draft.offers name) →
      (name ∈ changedExports (some committed) draft ↔
        ¬(committed.offers name).Perm (draft.offers name))) := by
  refine ⟨ParsedFile.mem_exportNames, mem_changedExports_some, fun hends => ?_⟩
  rw [mem_changedExports_some, hends.perm_iff]

/-! ## Overloads -/

/-- A file with overloads of one name. -/
def sampleOverloads (parameters : List String) : ParsedFile where
  path := "core/Scale.java"
  language := "java"
  exports := parameters.map fun p =>
    { name := "scale", kind := .method, signature := "scale(" ++ p ++ ")" }

/-- The last overload takes another parameter. -/
theorem sample_changed_overload :
    let committed := sampleOverloads ["int n", "double x"]
    let draft := sampleOverloads ["int n", "float x"]
    EndsDecide (committed.offers "scale") (draft.offers "scale") ∧
      "scale" ∈ changedExports (some committed) draft := by
  intro committed draft
  have hends : EndsDecide (committed.offers "scale") (draft.offers "scale") :=
    Or.inr (Or.inr (by decide))
  exact ⟨hends, ((changed_by_last_export committed draft "scale").2.2 hends).mpr (by decide)⟩

/-- When the first of two overloads takes another parameter, nothing is changed; when the two
change their places, the name is. -/
theorem sample_overloads_compared :
    let committed := sampleOverloads ["int n", "double x"]
    let draft := sampleOverloads ["long n", "double x"]
    let turned := sampleOverloads ["double x", "int n"]
    (¬(committed.offers "scale").Perm (draft.offers "scale") ∧
      "scale" ∉ changedExports (some committed) draft) ∧
    (committed.offers "scale").Perm (turned.offers "scale") ∧
      "scale" ∈ changedExports (some committed) turned := by
  decide

end ChangeImpact
