import ChangeImpact.Proofs.Ordered
import ChangeImpact.Symbols.Snapshot
import Mathlib.Data.List.Nodup

/-!
# Snapshots are read back

What is written of a file's symbols is read back as it was. Whatever else can be read, an
older snapshot or one with more in it, is read as symbols that are written and read back
from then on.
-/

namespace ChangeImpact

namespace Json

variable {α : Type}

/-! ## Fields -/

/-- Under its key a member is found if no other has that key. -/
private theorem find?_member {members : List (String × Json)} (h : (members.map (·.1)).Nodup)
    {m : String × Json} (hm : m ∈ members) : members.find? (·.1 = m.1) = some m := by
  induction members with
  | nil => cases hm
  | cons first members ih =>
    rw [List.map_cons, List.nodup_cons] at h
    rcases List.mem_cons.mp hm with rfl | hm
    · exact List.find?_cons_of_pos (decide_eq_true rfl)
    · have hne : first.1 ≠ m.1 := fun he => h.1 (he ▸ List.mem_map_of_mem hm)
      rw [List.find?_cons_of_neg (by simp [hne]), ih h.2 hm]

/-- An object with one member for each name has a field for each name. -/
theorem fieldsOf_object {names : List String} {members : List (String × Json)}
    (hnames : members.map (·.1) = names) (h : names.Nodup) :
    fieldsOf names (.object members) = some (members.map fun m => some m.2) := by
  subst hnames
  have honce : ((members.map (·.1)).any fun n => 1 < members.countP fun m => m.1 = n) = false := by
    refine List.any_eq_false.mpr fun n _ => ?_
    have hcount : members.countP (fun m => m.1 = n) = (members.map (·.1)).count n := by
      rw [List.count, List.countP_map]
      exact List.countP_congr fun m _ => by simp
    rw [hcount, decide_eq_true_eq]
    exact Nat.not_lt.mpr (List.nodup_iff_count_le_one.mp h n)
  rw [fieldsOf, honce, if_neg Bool.false_ne_true, List.map_map]
  refine congrArg some (List.map_congr_left fun m hm => ?_)
  exact congrArg (Option.map (·.2)) (find?_member h hm)

/-! ## Values -/

theorem line?_nat {n : Nat} (h : n < lineLimit) : line? (.nat n) = some n := by
  have hn : (nat n).nat? = some n := rfl
  rw [line?, hn, Option.filter_some, if_pos (decide_eq_true h)]

theorem lt_of_line? {v : Json} {n : Nat} (h : line? v = some n) : n < lineLimit :=
  of_decide_eq_true (Option.filter_eq_some_iff.mp h).2

/-- A line that may be left out is a line. -/
theorem lt_of_withDefault_line? {field : Option Json} {n : Nat}
    (h : withDefault 0 line? field = some n) : n < lineLimit := by
  cases field with
  | none =>
    cases h
    decide
  | some v => exact lt_of_line? h

/-- A list is read back if all its members are. -/
theorem list?_map {encode : α → Json} {decode : Json → Option α} {xs : List α}
    (h : ∀ x ∈ xs, decode (encode x) = some x) :
    list? decode (.array (xs.map encode)) = some xs := by
  change (xs.map encode).mapM decode = some xs
  induction xs with
  | nil => rfl
  | cons x xs ih =>
    rw [List.map_cons, List.mapM_cons, h x (List.mem_cons_self ..),
      ih fun y hy => h y (List.mem_cons_of_mem _ hy)]
    rfl

/-- What is read of a list was read of one of its values. -/
theorem exists_of_mem_list? {decode : Json → Option α} {v : Json} {xs : List α}
    (h : list? decode v = some xs) {x : α} (hx : x ∈ xs) : ∃ u, decode u = some x := by
  obtain ⟨values, -, hvalues⟩ := Option.bind_eq_some_iff.mp h
  clear h
  induction values generalizing xs with
  | nil =>
    cases hvalues
    cases hx
  | cons u values ih =>
    rw [List.mapM_cons] at hvalues
    obtain ⟨y, hy, hvalues⟩ := Option.bind_eq_some_iff.mp hvalues
    obtain ⟨ys, hys, hvalues⟩ := Option.bind_eq_some_iff.mp hvalues
    cases hvalues
    rcases List.mem_cons.mp hx with rfl | hx
    · exact ⟨u, hy⟩
    · exact ih hx hys

theorem nullable_text (x : Option String) : nullable string? (.ofOption .string x) = some x := by
  cases x <;> rfl

theorem choice?_word (kind : SymbolKind) :
    choice? SymbolKind (.string (wordOf kind)) = some kind := by
  cases kind <;> rfl

end Json

/-- Names without repetition are kept as they are. -/
theorem Ordered.distinct_eq_self {α : Type} [DecidableEq α] {xs : List α} (h : xs.Nodup) :
    Ordered.distinct xs = xs := by
  induction xs with
  | nil => rfl
  | cons x xs ih =>
    obtain ⟨hx, hs⟩ := List.nodup_cons.mp h
    rw [Ordered.distinct_cons, ih hs, List.filter_eq_self.mpr]
    intro y hy
    exact decide_eq_true fun he => hx (he ▸ hy)

open Json

/-! ## Records -/

/-- A snapshot holds names without repetition and lines of 32 bits. -/
structure Import.Storable (i : Import) : Prop where
  symbols : i.symbols.Nodup
  line : i.line < lineLimit

/-- A snapshot holds lines of 32 bits. -/
structure Export.Storable (e : Export) : Prop where
  line : e.line < lineLimit

/-- A snapshot holds lines of 32 bits. -/
structure Definition.Storable (d : Definition) : Prop where
  startLine : d.startLine < lineLimit
  endLine : d.endLine < lineLimit

/-- A snapshot holds lines of 32 bits. -/
structure Call.Storable (c : Call) : Prop where
  line : c.line < lineLimit

/-- Symbols that a snapshot can hold. -/
structure ParsedFile.Storable (f : ParsedFile) : Prop where
  imports : ∀ i ∈ f.imports, i.Storable
  exports : ∀ e ∈ f.exports, e.Storable
  definitions : ∀ d ∈ f.definitions, d.Storable
  calls : ∀ c ∈ f.calls, c.Storable

theorem Import.ofJson?_toJson {i : Import} (h : i.Storable) : Import.ofJson? i.toJson = some i := by
  have hfields : fieldsOf ["source", "symbols", "is_default", "is_wildcard", "line"] i.toJson =
      some [some (.string i.source), some (.strings i.symbols), some (.bool i.isDefault),
        some (.bool i.isWildcard), some (.nat i.line)] := fieldsOf_object rfl (by decide)
  have hsymbols : list? string? (.strings i.symbols) = some i.symbols := list?_map fun _ _ => rfl
  rw [Import.ofJson?, hfields]
  simp only [required, withDefault, Option.bind_some, string?, bool?, hsymbols, line?_nat h.line,
    Ordered.distinct_eq_self h.symbols, Option.bind_eq_bind]

theorem Export.ofJson?_toJson {e : Export} (h : e.Storable) : Export.ofJson? e.toJson = some e := by
  have hfields : fieldsOf ["name", "kind", "signature", "line"] e.toJson =
      some [some (.string e.name), some (.string (wordOf e.kind)), some (.string e.signature),
        some (.nat e.line)] := fieldsOf_object rfl (by decide)
  rw [Export.ofJson?, hfields]
  simp only [required, withDefault, Option.bind_some, string?, choice?_word, line?_nat h.line,
    Option.bind_eq_bind]

theorem Definition.ofJson?_toJson {d : Definition} (h : d.Storable) :
    Definition.ofJson? d.toJson = some d := by
  have hfields : fieldsOf ["name", "kind", "signature", "start_line", "end_line", "parent"]
      d.toJson = some [some (.string d.name), some (.string (wordOf d.kind)),
        some (.string d.signature), some (.nat d.startLine), some (.nat d.endLine),
        some (.ofOption .string d.parent)] := fieldsOf_object rfl (by decide)
  rw [Definition.ofJson?, hfields]
  simp only [required, withDefault, Option.bind_some, string?, choice?_word,
    line?_nat h.startLine, line?_nat h.endLine, nullable_text, Option.bind_eq_bind]

theorem Call.ofJson?_toJson {c : Call} (h : c.Storable) : Call.ofJson? c.toJson = some c := by
  have hfields : fieldsOf ["callee", "line", "parent_def"] c.toJson =
      some [some (.string c.callee), some (.nat c.line), some (.ofOption .string c.caller)] :=
    fieldsOf_object rfl (by decide)
  rw [Call.ofJson?, hfields]
  simp only [required, withDefault, Option.bind_some, string?, line?_nat h.line, nullable_text,
    Option.bind_eq_bind]

/-- What a snapshot can hold is read back from it. -/
theorem ParsedFile.ofJson?_toJson {f : ParsedFile} (h : f.Storable) :
    ParsedFile.ofJson? f.toJson = some f := by
  have hfields : fieldsOf ["path", "language", "imports", "exports", "definitions", "calls"]
      f.toJson = some [some (.string f.path), some (.string f.language),
        some (.array (f.imports.map (·.toJson))), some (.array (f.exports.map (·.toJson))),
        some (.array (f.definitions.map (·.toJson))), some (.array (f.calls.map (·.toJson)))] :=
    fieldsOf_object rfl (by decide)
  have himports := list?_map fun i hi => Import.ofJson?_toJson (h.imports i hi)
  have hexports := list?_map fun e he => Export.ofJson?_toJson (h.exports e he)
  have hdefinitions := list?_map fun d hd => Definition.ofJson?_toJson (h.definitions d hd)
  have hcalls := list?_map fun c hc => Call.ofJson?_toJson (h.calls c hc)
  rw [ParsedFile.ofJson?, hfields]
  simp only [required, withDefault, Option.bind_some, string?, himports, hexports, hdefinitions,
    hcalls, Option.bind_eq_bind]

theorem Import.storable_of_ofJson? {v : Json} {i : Import} (h : Import.ofJson? v = some i) :
    i.Storable := by
  rw [Import.ofJson?] at h
  split at h
  · simp only [Option.bind_eq_bind, Option.bind_eq_some_iff] at h
    obtain ⟨source, -, symbols, -, isDefault, -, isWildcard, -, line, hline, h⟩ := h
    cases h
    exact ⟨Ordered.nodup_distinct symbols, lt_of_withDefault_line? hline⟩
  · cases h

theorem Export.storable_of_ofJson? {v : Json} {e : Export} (h : Export.ofJson? v = some e) :
    e.Storable := by
  rw [Export.ofJson?] at h
  split at h
  · simp only [Option.bind_eq_bind, Option.bind_eq_some_iff] at h
    obtain ⟨name, -, kind, -, signature, -, line, hline, h⟩ := h
    cases h
    exact ⟨lt_of_withDefault_line? hline⟩
  · cases h

theorem Definition.storable_of_ofJson? {v : Json} {d : Definition}
    (h : Definition.ofJson? v = some d) : d.Storable := by
  rw [Definition.ofJson?] at h
  split at h
  · simp only [Option.bind_eq_bind, Option.bind_eq_some_iff] at h
    obtain ⟨name, -, kind, -, signature, -, startLine, hstart, endLine, hend, parent, -, h⟩ := h
    cases h
    exact ⟨lt_of_withDefault_line? hstart, lt_of_withDefault_line? hend⟩
  · cases h

theorem Call.storable_of_ofJson? {v : Json} {c : Call} (h : Call.ofJson? v = some c) :
    c.Storable := by
  rw [Call.ofJson?] at h
  split at h
  · simp only [Option.bind_eq_bind, Option.bind_eq_some_iff] at h
    obtain ⟨callee, -, line, hline, caller, -, h⟩ := h
    cases h
    exact ⟨lt_of_withDefault_line? hline⟩
  · cases h

/-- If all that a decoder gives can be stored, so can all of a list that may be left out. -/
private theorem storable_of_mem_list {α : Type} {decode : Json → Option α} {P : α → Prop}
    (h : ∀ v x, decode v = some x → P x) {field : Option Json} {xs : List α}
    (hxs : withDefault [] (list? decode) field = some xs) : ∀ x ∈ xs, P x := by
  cases field with
  | none =>
    cases hxs
    exact nofun
  | some v =>
    intro x hx
    obtain ⟨u, hu⟩ := exists_of_mem_list? hxs hx
    exact h u x hu

/-- What is read of a snapshot can be stored again. -/
theorem ParsedFile.storable_of_ofJson? {v : Json} {f : ParsedFile}
    (h : ParsedFile.ofJson? v = some f) : f.Storable := by
  rw [ParsedFile.ofJson?] at h
  split at h
  · simp only [Option.bind_eq_bind, Option.bind_eq_some_iff] at h
    obtain ⟨path, -, language, -, imports, himports, exports, hexports, definitions,
      hdefinitions, calls, hcalls, h⟩ := h
    cases h
    exact ⟨storable_of_mem_list (fun _ _ => Import.storable_of_ofJson?) himports,
      storable_of_mem_list (fun _ _ => Export.storable_of_ofJson?) hexports,
      storable_of_mem_list (fun _ _ => Definition.storable_of_ofJson?) hdefinitions,
      storable_of_mem_list (fun _ _ => Call.storable_of_ofJson?) hcalls⟩
  · cases h

/-- Symbols that a snapshot can hold are read back from it as they were. Whatever value is read
as a snapshot, what is written of it is read again, as the same symbols, and is written in the
same way from then on. -/
theorem snapshots_round_trip :
    (∀ f : ParsedFile, f.Storable → ParsedFile.ofJson? f.toJson = some f) ∧
      ∀ (v : Json) (f : ParsedFile), ParsedFile.ofJson? v = some f →
        ParsedFile.ofJson? f.toJson = some f ∧
          (ParsedFile.ofJson? f.toJson).map (·.toJson) = some f.toJson := by
  refine ⟨fun f hf => ParsedFile.ofJson?_toJson hf, fun v f h => ?_⟩
  have hread := ParsedFile.ofJson?_toJson (ParsedFile.storable_of_ofJson? h)
  exact ⟨hread, congrArg (Option.map (·.toJson)) hread⟩

/-- An older snapshot: most fields are left out, one is unknown, a name repeats, and an import
is a list of its fields. -/
def sampleLegacy : Json :=
  .object [("version", .nat 2), ("language", .string "python"), ("path", .string "a.py"),
    ("imports", .array [
      .object [("symbols", .strings ["y", "x", "y"]), ("source", .string "./b")],
      .array [.string "./c", .strings ["z"]]])]

/-- The symbols of the older snapshot. -/
def sampleSymbols : ParsedFile where
  path := "a.py"
  language := "python"
  imports := [{ source := "./b", symbols := ["y", "x"] }, { source := "./c", symbols := ["z"] }]

/-- The older snapshot is read, and its symbols are stored from then on. -/
theorem sample_snapshot_read :
    ParsedFile.ofJson? sampleLegacy = some sampleSymbols ∧ sampleSymbols.Storable ∧
      ParsedFile.ofJson? sampleSymbols.toJson = some sampleSymbols ∧
        (ParsedFile.ofJson? sampleSymbols.toJson).map (·.toJson) = some sampleSymbols.toJson :=
  have hread : ParsedFile.ofJson? sampleLegacy = some sampleSymbols := by decide
  have hstorable := ParsedFile.storable_of_ofJson? hread
  ⟨hread, hstorable, snapshots_round_trip.1 _ hstorable, (snapshots_round_trip.2 _ _ hread).2⟩

end ChangeImpact
