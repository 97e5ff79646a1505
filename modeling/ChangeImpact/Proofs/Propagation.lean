import ChangeImpact.Propagation
import ChangeImpact.Proofs.Graph.Edges
import Mathlib.Data.List.Nodup

/-!
# What a change reaches

A component is reached exactly when an edge leads from it into the changed component
and one of its files imports a file of that component in a way that the change
touches. Every reached component is listed once, and so is each of its contributors.
-/

namespace ChangeImpact

/-- A change of some names, or of content, touches an import of a file: when the import
binds everything, or one of the changed names. -/
def Import.TouchedBy (i : Import) (target : ParsedFile) (names : String → Prop)
    (content : Prop) : Prop :=
  (i.bindsEverything = true ∧ ((∃ name, names name) ∨ content)) ∨
    (i.bindsEverything = false ∧
      ∃ name, names name ∧ (name ∈ i.symbols ∨ name ∈ confirmedSymbols i target))

/-- The components that an analysis names as reached. -/
def reachedBy (component : String) (changed : List String) (contentChanged : Bool)
    (edges : List DependencyEdge) (index : ExportIndex) : List String :=
  (affectedComponents component changed contentChanged edges index).map (·.component)

variable {component c : String} {changed : List String} {contentChanged : Bool}
  {edges : List DependencyEdge} {index : ExportIndex}

theorem usedSymbols_isSome_iff {i : Import} {target : ParsedFile} :
    (usedSymbols i target changed contentChanged).isSome = true ↔
      i.TouchedBy target (· ∈ changed) (contentChanged = true) := by
  rw [usedSymbols, Import.TouchedBy]
  cases hb : i.bindsEverything with
  | true =>
    cases changed with
    | nil => cases contentChanged <;> simp
    | cons name names => simp
  | false =>
    simp only [Bool.false_eq_true, if_false, false_and, false_or, true_and]
    cases hu : (Ordered.union i.symbols (confirmedSymbols i target)).filter changed.contains with
    | nil =>
      rw [List.filter_eq_nil_iff] at hu
      simp only [List.isEmpty_nil, if_true, Option.isSome_none, Bool.false_eq_true, false_iff]
      rintro ⟨name, hname, hused⟩
      exact hu name (Ordered.mem_union.mpr hused) (List.contains_iff_mem.mpr hname)
    | cons name names =>
      have hname := List.mem_filter.mp (hu ▸ List.mem_cons_self (a := name) (l := names))
      simp only [List.isEmpty_cons, Bool.false_eq_true, if_false, Option.isSome_some, true_iff]
      exact ⟨name, List.contains_iff_mem.mp hname.2, Ordered.mem_union.mp hname.1⟩

/-- A file has a matching import when it imports a file of the component in a way that the
change touches. -/
theorem matchesOf_ne_nil_iff {f : IndexedFile} :
    matchesOf index component changed contentChanged f ≠ [] ↔
      ∃ i ∈ f.parsed.imports, i.isRelative = true ∧ ∃ g, index.target? f.path i = some g ∧
        g.component = some component ∧
        i.TouchedBy g.parsed (· ∈ changed) (contentChanged = true) := by
  rw [matchesOf]
  simp only [← usedSymbols_isSome_iff]
  constructor
  · intro hne
    obtain ⟨m, hm⟩ := List.exists_mem_of_ne_nil _ hne
    obtain ⟨i, hi, hm⟩ := List.mem_filterMap.mp hm
    by_cases hrel : i.isRelative = true
    · rw [if_pos hrel] at hm
      cases hg : index.target? f.path i with
      | none =>
        rw [hg] at hm
        cases hm
      | some g =>
        simp only [hg] at hm
        by_cases hc : g.component = some component
        · rw [if_pos hc] at hm
          obtain ⟨symbols, hs, -⟩ := Option.map_eq_some_iff.mp hm
          exact ⟨i, hi, hrel, g, hg, hc, Option.isSome_iff_exists.mpr ⟨symbols, hs⟩⟩
        · rw [if_neg hc] at hm
          cases hm
    · rw [if_neg hrel] at hm
      cases hm
  · rintro ⟨i, hi, hrel, g, hg, hc, hused⟩
    have hsome : (matchImport i g.parsed changed contentChanged).isSome = true := by
      rw [matchImport, Option.isSome_map]
      exact hused
    obtain ⟨m, hm⟩ := Option.isSome_iff_exists.mp hsome
    refine List.ne_nil_of_mem (a := m) (List.mem_filterMap.mpr ⟨i, hi, ?_⟩)
    rw [if_pos hrel]
    simp only [hg, hc, if_true]
    exact hm

theorem mem_candidateSources :
    c ∈ candidateSources component edges ↔
      c ≠ component ∧ ∃ e ∈ edges, e.source = c ∧ e.target = component := by
  rw [candidateSources, Ordered.mem_ofList, List.mem_filter, decide_eq_true_eq, and_comm,
    List.mem_map]
  refine and_congr_right fun _ => exists_congr fun e => ?_
  rw [List.mem_filter, decide_eq_true_eq, and_assoc, and_comm (a := e.target = component)]

/-! ## The files one after the other -/

section Files

variable {candidates : List String} {reached : List (String × AffectedComponent)}
  {f : IndexedFile} {fs : List IndexedFile}

/-- A file makes its component reached, when that is a candidate. -/
private theorem mem_keys_reachFile :
    c ∈ (reachFile index component changed contentChanged candidates reached f).map (·.1) ↔
      c ∈ reached.map (·.1) ∨ (c ∈ candidates ∧ f.component = some c ∧
        matchesOf index component changed contentChanged f ≠ []) := by
  rw [reachFile]
  cases f.component with
  | none => simp
  | some owner =>
    by_cases hn : (!candidates.contains owner ||
        (matchesOf index component changed contentChanged f).isEmpty) = true
    · simp only [hn, if_true]
      refine (or_iff_left ?_).symm
      rintro ⟨hc, howner, hm⟩
      cases howner
      simp [hc, hm] at hn
    · simp only [hn]
      rw [if_neg Bool.false_ne_true, Ordered.mem_keys_alter, or_comm]
      refine or_congr_right ?_
      simp only [Bool.or_eq_true, Bool.not_eq_true', List.isEmpty_iff, not_or,
        Bool.not_eq_false, List.contains_iff_mem] at hn
      constructor
      · rintro rfl
        exact ⟨hn.1, rfl, hn.2⟩
      · rintro ⟨-, howner, -⟩
        exact (Option.some.inj howner).symm

private theorem mem_keys_foldl_reachFile :
    c ∈ (fs.foldl (reachFile index component changed contentChanged candidates) reached).map (·.1) ↔
      c ∈ reached.map (·.1) ∨ (c ∈ candidates ∧ ∃ f ∈ fs, f.component = some c ∧
        matchesOf index component changed contentChanged f ≠ []) := by
  induction fs generalizing reached with
  | nil => simp
  | cons f fs ih =>
    rw [List.foldl_cons, ih, mem_keys_reachFile, List.exists_mem_cons_iff, or_assoc, and_or_left]

/-- The entries are in order and stand under the components that they are about. -/
def Filed (reached : List (String × AffectedComponent)) : Prop :=
  (reached.map (·.1)).Pairwise (· < ·) ∧ ∀ e ∈ reached, e.2.component = e.1

theorem filed_nil : Filed [] :=
  ⟨List.Pairwise.nil, fun _ he => absurd he List.not_mem_nil⟩

private theorem filed_reachFile (h : Filed reached) :
    Filed (reachFile index component changed contentChanged candidates reached f) := by
  rw [reachFile]
  cases f.component with
  | none => exact h
  | some owner =>
    dsimp only
    split
    · exact h
    · refine ⟨Ordered.pairwise_keys_alter h.1, fun e he => ?_⟩
      rcases Ordered.mem_alter he with he | ⟨old, rfl, hold⟩
      · exact h.2 e he
      · cases old with
        | none => rfl
        | some a => exact h.2 (owner, a) (hold a rfl)

theorem filed_foldl_reachFile (h : Filed reached) :
    Filed (fs.foldl (reachFile index component changed contentChanged candidates) reached) := by
  induction fs generalizing reached with
  | nil => exact h
  | cons f fs ih => exact ih (filed_reachFile h)

end Files

private theorem reachedBy_eq (h : ¬(changed.isEmpty = true ∧ (!contentChanged) = true)) :
    reachedBy component changed contentChanged edges index =
      (index.toList.foldl (reachFile index component changed contentChanged
        (candidateSources component edges)) []).map (·.1) := by
  rw [reachedBy, affectedComponents, if_neg h, List.map_map]
  apply List.map_congr_left
  intro e he
  exact (filed_foldl_reachFile filed_nil).2 e he

/-- A component is reached when an edge leads from it into the changed component and one of
its files imports from there in a way that the change touches. -/
theorem mem_reachedBy :
    c ∈ reachedBy component changed contentChanged edges index ↔
      (c ≠ component ∧ ∃ e ∈ edges, e.source = c ∧ e.target = component) ∧
        index.Imports c component fun i g =>
          i.TouchedBy g (· ∈ changed) (contentChanged = true) := by
  by_cases h : changed.isEmpty = true ∧ (!contentChanged) = true
  · rw [reachedBy, affectedComponents, if_pos h]
    refine iff_of_false List.not_mem_nil ?_
    rintro ⟨-, f, -, -, i, -, -, g, -, -, ht⟩
    rw [List.isEmpty_iff, Bool.not_eq_true'] at h
    rw [h.1, h.2] at ht
    simp [Import.TouchedBy] at ht
  · rw [reachedBy_eq h, mem_keys_foldl_reachFile, mem_candidateSources]
    simp only [matchesOf_ne_nil_iff, List.map_nil, List.not_mem_nil, false_or]
    rfl

/-- The reached components ascend. -/
theorem pairwise_reachedBy :
    (reachedBy component changed contentChanged edges index).Pairwise (· < ·) := by
  by_cases h : changed.isEmpty = true ∧ (!contentChanged) = true
  · rw [reachedBy, affectedComponents, if_pos h]
    exact List.Pairwise.nil
  · rw [reachedBy_eq h]
    exact (filed_foldl_reachFile filed_nil).1

theorem nodup_reachedBy : (reachedBy component changed contentChanged edges index).Nodup :=
  pairwise_reachedBy.imp fun hxy => ne_of_irrefl hxy

/-! ## Contributors -/

variable {affected : List AffectedComponent} {contributors : String → List String}

/-- Who is told about which component. -/
def told (affected : List AffectedComponent) (contributors : String → List String) :
    List (String × String) :=
  (impactedContributors affected contributors).map fun x => (x.1.component, x.2)

/-- The contributors of the reached components are told, and nobody else. -/
theorem mem_told {user : String} :
    (c, user) ∈ told affected contributors ↔
      c ∈ affected.map (·.component) ∧ user ∈ contributors c := by
  simp only [told, impactedContributors, List.mem_map, List.mem_flatMap, Ordered.mem_ofList]
  constructor
  · rintro ⟨_, ⟨a, ha, u, hu, rfl⟩, heq⟩
    cases heq
    exact ⟨⟨a, ha, rfl⟩, hu⟩
  · rintro ⟨⟨a, ha, rfl⟩, hu⟩
    exact ⟨_, ⟨a, ha, user, hu, rfl⟩, rfl⟩

/-- Nobody is told twice about a component. -/
theorem nodup_told (h : (affected.map (·.component)).Nodup) :
    (told affected contributors).Nodup := by
  rw [told, impactedContributors, List.map_flatMap, List.nodup_flatMap]
  refine ⟨fun a _ => ?_, (List.pairwise_map.mp h).imp fun {a b} hab => ?_⟩
  · rw [List.map_map]
    exact Ordered.nodup_ofList.map fun u v huv => congrArg Prod.snd huv
  · intro x hx hy
    simp only [List.map_map, List.mem_map, Function.comp_apply] at hx hy
    obtain ⟨u, -, rfl⟩ := hx
    obtain ⟨v, -, heq⟩ := hy
    exact hab (congrArg Prod.fst heq).symm

end ChangeImpact
