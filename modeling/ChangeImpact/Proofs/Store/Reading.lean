import ChangeImpact.Proofs.Ordered
import ChangeImpact.Proofs.Store.Intact

/-!
# What reading gives

Reading answers with rows of the tables, and in a store without damaged cells it
never fails.
-/

namespace ChangeImpact.Store

variable {s : Store} {α : Type} {columns : List Column} {key : α → String}

theorem isReadable_of_readable (h : s.damaged = []) (columns : List Column) (row : String) :
    s.isReadable columns row = true := by
  simp [isReadable, h]

/-- What can be read still can when fewer cells are damaged. -/
theorem isReadable_of_subset {t : Store} (hd : t.damaged ⊆ s.damaged) {row : String}
    (h : s.isReadable columns row = true) : t.isReadable columns row = true := by
  rw [isReadable, List.all_eq_true] at h ⊢
  intro c hc
  have hs := h c hc
  simp only [Bool.not_eq_true', ← Bool.not_eq_true, List.contains_iff_mem] at hs ⊢
  exact fun hmem => hs (hd hmem)

theorem eq_of_readRows {rows xs : List α} (h : s.readRows columns key rows = .ok xs) :
    xs = rows := by
  rw [readRows] at h
  split at h
  · cases h
    rfl
  · cases h

theorem readRows_of_readable (h : s.damaged = []) (rows : List α) :
    s.readRows columns key rows = .ok rows := by
  rw [readRows, if_pos]
  rw [List.all_eq_true]
  intro r _
  exact isReadable_of_readable h columns (key r)

theorem eq_of_readFirst {row found : Option α} (h : s.readFirst columns key row = .ok found) :
    found = row := by
  cases row with
  | none =>
    cases h
    rfl
  | some r =>
    rw [readFirst] at h
    split at h
    · cases h
      rfl
    · cases h

theorem isReadable_of_readFirst {row : Option α} {r : α}
    (h : s.readFirst columns key row = .ok (some r)) : s.isReadable columns (key r) = true := by
  cases row with
  | none => cases h
  | some a =>
    rw [readFirst] at h
    split at h
    · cases h
      assumption
    · cases h

theorem readFirst_of_readable (h : s.damaged = []) (row : Option α) :
    s.readFirst columns key row = .ok row := by
  cases row with
  | none => rfl
  | some r => rw [readFirst, if_pos (isReadable_of_readable h columns (key r))]

private theorem mem_of_readFirst {rows : List α} {id : String} {r : α}
    (h : s.readFirst columns key (rows.find? fun r => key r = id) = .ok (some r)) :
    r ∈ rows ∧ key r = id := by
  have hf := (eq_of_readFirst h).symm
  refine ⟨List.mem_of_find?_eq_some hf, ?_⟩
  simpa using List.find?_some hf

theorem mem_of_request? {id : String} {r : ChangeRequest} (h : s.request? id = .ok (some r)) :
    r ∈ s.requests ∧ r.id = id := mem_of_readFirst h

theorem mem_of_project? {id : String} {p : Project} (h : s.project? id = .ok (some p)) :
    p ∈ s.projects ∧ p.id = id := mem_of_readFirst h

theorem mem_of_impact? {id : String} {i : Impact} (h : s.impact? id = .ok (some i)) :
    i ∈ s.impacts ∧ i.id = id := mem_of_readFirst h

theorem mem_of_file? {id : String} {f : ProjectFile} (h : s.file? id = .ok (some f)) :
    f ∈ s.files ∧ f.id = id := mem_of_readFirst h

/-- A project that can be read still can when fewer cells are damaged. -/
theorem project?_of_subset {t : Store} (hp : t.projects = s.projects)
    (hd : t.damaged ⊆ s.damaged) {id : String} {p : Project} (h : s.project? id = .ok (some p)) :
    t.project? id = .ok (some p) := by
  have hfind := (eq_of_readFirst h).symm
  rw [project?, hfind, readFirst] at h
  rw [project?, hp, hfind, readFirst, if_pos]
  split at h
  · exact isReadable_of_subset hd ‹_›
  · cases h

/-- The symbols of the files of a project can be read. -/
def Legible (s : Store) (project : String) : Prop :=
  ∀ f ∈ s.files, f.project = project → s.isReadable [.symbols] f.id = true

theorem filesOf_of_legible {project : String} (h : s.Legible project) :
    s.filesOf project = .ok (byPath (s.files.filter (·.project = project))) := by
  rw [filesOf, readRows, if_pos]
  rw [List.all_eq_true]
  intro f hf
  obtain ⟨hf, hp⟩ := List.mem_filter.mp (Ordered.mem_sortBy.mp hf)
  exact h f hf (of_decide_eq_true hp)

theorem legible_of_filesOf {project : String} {fs : List ProjectFile}
    (h : s.filesOf project = .ok fs) : s.Legible project := by
  intro f hf hp
  rw [filesOf, readRows] at h
  split at h
  · rename_i hall
    rw [List.all_eq_true] at hall
    exact hall f (Ordered.mem_sortBy.mpr (List.mem_filter.mpr ⟨hf, decide_eq_true hp⟩))
  · cases h

theorem legible_of_readable (h : s.damaged = []) (project : String) : s.Legible project :=
  fun f _ _ => isReadable_of_readable h _ f.id

/-- In an intact store a request is found under its identifier. -/
theorem Intact.request?_eq (h : s.Intact) {r : ChangeRequest} (hr : r ∈ s.requests) :
    s.request? r.id = .ok (some r) := by
  rw [request?, readFirst_of_readable h.readable]
  exact congrArg Except.ok (h.requestIds.find?_eq_some_iff.mpr ⟨hr, rfl⟩)

theorem Intact.project?_eq (h : s.Intact) {p : Project} (hp : p ∈ s.projects) :
    s.project? p.id = .ok (some p) := by
  rw [project?, readFirst_of_readable h.readable]
  exact congrArg Except.ok (h.projectIds.find?_eq_some_iff.mpr ⟨hp, rfl⟩)

theorem Intact.file?_eq (h : s.Intact) {f : ProjectFile} (hf : f ∈ s.files) :
    s.file? f.id = .ok (some f) := by
  rw [file?, readFirst_of_readable h.readable]
  exact congrArg Except.ok (h.fileIds.find?_eq_some_iff.mpr ⟨hf, rfl⟩)

/-- The impacts of a request are listed in some order. -/
theorem mem_impactsOf {change : String} {is : List Impact} (h : s.impactsOf change = .ok is)
    {i : Impact} : i ∈ is ↔ i ∈ s.impacts ∧ i.change = change := by
  rw [eq_of_readRows h, Ordered.mem_sortBy, List.mem_filter, decide_eq_true_eq]

theorem impactsOf_of_readable (h : s.damaged = []) (change : String) :
    ∃ is, s.impactsOf change = .ok is :=
  ⟨_, readRows_of_readable h _⟩

theorem mem_activeDrafts {author component : String} {d : Draft} :
    d ∈ s.activeDrafts author component ↔
      d ∈ s.drafts ∧ d.author = author ∧ d.active = true ∧
        ∃ f ∈ s.files, f.id = d.file ∧ f.component = some component := by
  rw [activeDrafts, Ordered.mem_sortBy, List.mem_filter]
  simp [and_assoc]

theorem mem_edgesInto {project component : String} {e : DependencyEdge} :
    e ∈ s.edgesInto project component ↔
      ∃ row ∈ s.edges, row.project = project ∧ row.edge.target = component ∧ row.edge = e := by
  rw [edgesInto, byEnds, Ordered.mem_sortBy, List.mem_map]
  refine exists_congr fun row => ?_
  rw [List.mem_filter, Bool.and_eq_true, decide_eq_true_eq, decide_eq_true_eq, and_assoc, and_assoc]

theorem mem_contributorsOf {component : String} {c : Contributor} :
    c ∈ s.contributorsOf component ↔ c ∈ s.contributors ∧ c.component = component := by
  rw [contributorsOf, Ordered.mem_sortBy, List.mem_filter, decide_eq_true_eq]

/-- The open impacts that are listed belong to requests that are not decided. -/
theorem mem_openImpacts {found : List (Impact × Instant)} (h : s.openImpacts = .ok found)
    {i : Impact} {t : Instant} (hi : (i, t) ∈ found) :
    i ∈ s.impacts ∧ i.isResolved = false ∧
      ∃ r ∈ s.requests, r.id = i.change ∧ r.createdAt = t ∧
        s.statusIs r .approved = false ∧ s.statusIs r .rejected = false := by
  rw [eq_of_readRows h, Ordered.mem_sortBy, List.mem_filterMap] at hi
  obtain ⟨j, hj, hr⟩ := hi
  obtain ⟨r, hopen, heq⟩ := Option.map_eq_some_iff.mp hr
  cases heq
  obtain ⟨hmem, hres⟩ := List.mem_filter.mp hj
  obtain ⟨hfind, hst⟩ := Option.filter_eq_some_iff.mp hopen
  refine ⟨hmem, ?_, r, List.mem_of_find?_eq_some hfind, ?_, rfl, ?_⟩
  · simpa using hres
  · simpa using List.find?_some hfind
  · simpa using hst

end ChangeImpact.Store
