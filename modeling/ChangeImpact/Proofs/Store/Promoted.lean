import ChangeImpact.Proofs.Store.Frames

/-!
# What an approval writes

An approval promotes the drafts one after the other, releases components, closes the
request and takes a snapshot. Each file is promoted on its own, the last draft of a file
having the last word.
-/

namespace ChangeImpact

/-- The file after a promotion, which may concern another one. -/
def ProjectFile.promote (p : PromotedFile) (f : ProjectFile) : ProjectFile :=
  if f.id = p.file then
    { f with
      storageKey := p.storageKey, hash := some p.hash, size := p.size
      symbols := p.symbols <|> f.symbols }
  else f

namespace ProjectFile

variable {f : ProjectFile} {p : PromotedFile} {ps : List PromotedFile}

theorem promote_of_eq (h : f.id = p.file) : f.promote p =
    { f with
      storageKey := p.storageKey, hash := some p.hash, size := p.size
      symbols := p.symbols <|> f.symbols } :=
  if_pos h

theorem promote_of_ne (h : f.id ≠ p.file) : f.promote p = f := if_neg h

/-- A file that is not promoted stays as it is. -/
theorem foldl_promote_of_ne (h : ∀ p ∈ ps, f.id ≠ p.file) :
    ps.foldl (fun f p => f.promote p) f = f := by
  induction ps with
  | nil => rfl
  | cons p ps ih =>
    rw [List.foldl_cons, promote_of_ne (h p (List.mem_cons_self ..))]
    exact ih fun q hq => h q (List.mem_cons_of_mem _ hq)

/-- Promotions leave alone what a single one leaves alone. -/
theorem foldl_promote_eq {α : Type} {g : ProjectFile → α} (hg : ∀ p f, g (promote p f) = g f)
    (ps : List PromotedFile) (f : ProjectFile) : g (ps.foldl (fun f p => f.promote p) f) = g f := by
  induction ps generalizing f with
  | nil => rfl
  | cons p ps ih => rw [List.foldl_cons, ih, hg]

/-- Promotions without symbols keep those of the file. -/
theorem symbols_foldl_promote (h : ∀ p ∈ ps, f.id = p.file → p.symbols = none) :
    (ps.foldl (fun f p => f.promote p) f).symbols = f.symbols := by
  induction ps generalizing f with
  | nil => rfl
  | cons p ps ih =>
    have hone : (f.promote p).id = f.id ∧ (f.promote p).symbols = f.symbols := by
      by_cases hid : f.id = p.file
      · rw [promote_of_eq hid, h p (List.mem_cons_self ..) hid]
        exact ⟨rfl, rfl⟩
      · rw [promote_of_ne hid]
        exact ⟨rfl, rfl⟩
    rw [List.foldl_cons, ih fun q hq hid => ?_, hone.2]
    exact h q (List.mem_cons_of_mem _ hq) (hone.1.symm.trans hid)

/-- A file that has symbols keeps some. -/
theorem isSome_symbols_foldl_promote (h : f.symbols.isSome = true) :
    (ps.foldl (fun f p => f.promote p) f).symbols.isSome = true := by
  induction ps generalizing f with
  | nil => exact h
  | cons p ps ih =>
    have hone : (f.promote p).symbols.isSome = true := by
      by_cases hid : f.id = p.file
      · rw [promote_of_eq hid]
        cases hp : p.symbols with
        | none => exact h
        | some symbols => rfl
      · rwa [promote_of_ne hid]
    exact ih hone

theorem id_promote (p : PromotedFile) (f : ProjectFile) : (f.promote p).id = f.id := by
  rw [promote]
  split <;> rfl

theorem project_promote (p : PromotedFile) (f : ProjectFile) :
    (f.promote p).project = f.project := by
  rw [promote]
  split <;> rfl

theorem path_promote (p : PromotedFile) (f : ProjectFile) : (f.promote p).path = f.path := by
  rw [promote]
  split <;> rfl

theorem component_promote (p : PromotedFile) (f : ProjectFile) :
    (f.promote p).component = f.component := by
  rw [promote]
  split <;> rfl

end ProjectFile

namespace Store

variable {s t : Store} {ps : List PromotedFile} {c : ApprovalCommit} {snapshot : String}

/-- Promotions leave alone what a single one leaves alone. -/
theorem promoteAll_eq {α : Type} {f : Store → α} (hf : ∀ p s, f (Store.promote p s) = f s)
    (ps : List PromotedFile) (s : Store) : f (ps.foldl (fun s p => s.promote p) s) = f s := by
  induction ps generalizing s with
  | nil => rfl
  | cons p ps ih => rw [List.foldl_cons, ih, hf]

/-- Each file goes through the promotions on its own. -/
theorem files_promoteAll (ps : List PromotedFile) (s : Store) :
    (ps.foldl (fun s p => s.promote p) s).files =
      s.files.map fun f => ps.foldl (fun f p => f.promote p) f := by
  induction ps generalizing s with
  | nil => exact (List.map_id s.files).symm
  | cons p ps ih =>
    have hone : (s.promote p).files = s.files.map (·.promote p) :=
      List.map_congr_left fun f _ => by simp only [ProjectFile.promote, decide_eq_true_eq]
    rw [List.foldl_cons, ih, hone, List.map_map]
    rfl

/-- Promotions damage nothing, and mend at most the promoted files. -/
theorem damaged_promoteAll (ps : List PromotedFile) (s : Store) :
    (ps.foldl (fun s p => s.promote p) s).damaged ⊆ s.damaged ∧
      ∀ cell ∈ s.damaged, (∀ p ∈ ps, cell.row ≠ p.file) →
        cell ∈ (ps.foldl (fun s p => s.promote p) s).damaged := by
  induction ps generalizing s with
  | nil => exact ⟨List.Subset.refl _, fun cell hcell _ => hcell⟩
  | cons p ps ih =>
    obtain ⟨hsub, hkeep⟩ := ih (s.promote p)
    refine ⟨List.Subset.trans hsub (List.filter_subset_self _), fun cell hcell hne => ?_⟩
    refine hkeep cell (List.mem_filter.mpr ⟨hcell, ?_⟩) fun q hq =>
      hne q (List.mem_cons_of_mem _ hq)
    simp [hne p (List.mem_cons_self ..)]

/-- The tables after an approval. -/
theorem eq_of_commitApproval (h : s.commitApproval c snapshot = .ok t) :
    ∃ snapshots snapshotFiles, t =
      { ((c.promoted.foldl (fun s p => s.promote p) s).setComponentStatus c.stabilize
          .stable).close c.change .approved c.resolvedAt with snapshots, snapshotFiles } := by
  obtain ⟨-, h⟩ := demand_bind_ok.mp h
  obtain ⟨-, h⟩ := demand_bind_ok.mp h
  cases h
  exact ⟨_, _, rfl⟩

theorem files_commitApproval (h : s.commitApproval c snapshot = .ok t) :
    t.files = s.files.map fun f => c.promoted.foldl (fun f p => f.promote p) f := by
  obtain ⟨_, _, rfl⟩ := eq_of_commitApproval h
  exact files_promoteAll c.promoted s

theorem projects_commitApproval (h : s.commitApproval c snapshot = .ok t) :
    t.projects = s.projects := by
  obtain ⟨_, _, rfl⟩ := eq_of_commitApproval h
  exact promoteAll_eq (f := Store.projects) (fun _ _ => rfl) c.promoted s

/-- An approval writes nothing about dependencies. -/
theorem graph_commitApproval (h : s.commitApproval c snapshot = .ok t) :
    t.edges = s.edges ∧ t.external = s.external := by
  obtain ⟨_, _, rfl⟩ := eq_of_commitApproval h
  exact ⟨promoteAll_eq (f := Store.edges) (fun _ _ => rfl) c.promoted s,
    promoteAll_eq (f := Store.external) (fun _ _ => rfl) c.promoted s⟩

theorem damaged_commitApproval (h : s.commitApproval c snapshot = .ok t) :
    t.damaged ⊆ s.damaged := by
  obtain ⟨_, _, rfl⟩ := eq_of_commitApproval h
  exact List.Subset.trans (List.filter_subset_self _)
    (List.Subset.trans (List.filter_subset_self _) (damaged_promoteAll c.promoted s).1)

/-- A file whose symbols can be read afterwards could be read before, unless it was promoted. -/
theorem isReadable_of_commitApproval (h : s.commitApproval c snapshot = .ok t) {file : String}
    (hread : t.isReadable [.symbols] file = true) (hne : ∀ p ∈ c.promoted, file ≠ p.file) :
    s.isReadable [.symbols] file = true := by
  obtain ⟨_, _, rfl⟩ := eq_of_commitApproval h
  simp only [isReadable, List.all_cons, List.all_nil, Bool.and_true, Bool.not_eq_true',
    ← Bool.not_eq_true, List.contains_iff_mem] at hread ⊢
  refine fun hcell => hread (List.mem_filter.mpr ⟨List.mem_filter.mpr ⟨?_, by simp⟩, by simp⟩)
  exact (damaged_promoteAll c.promoted s).2 _ hcell hne

/-- The constraints do not depend on which cells are damaged. -/
theorem Consistent.of_damaged (cells : List Cell)
    (h : ({ s with damaged := cells } : Store).Consistent) : s.Consistent :=
  { h with }

/-- Consistent tables are intact once their cells are mended. -/
theorem Consistent.mended (h : s.Consistent) : ({ s with damaged := [] } : Store).Intact :=
  { h with readable := rfl }

/-- An approval does not depend on which cells are damaged. -/
theorem commitApproval_mended (h : s.commitApproval c snapshot = .ok t) :
    commitApproval c snapshot { s with damaged := [] } = .ok { t with damaged := [] } := by
  have hclear (ps : List PromotedFile) (s : Store) :
      ps.foldl (fun s p => s.promote p) { s with damaged := [] } =
        { ps.foldl (fun s p => s.promote p) s with damaged := [] } := by
    induction ps generalizing s with
    | nil => rfl
    | cons p ps ih => exact ih (s.promote p)
  obtain ⟨hfree, h⟩ := demand_bind_ok.mp h
  obtain ⟨hrefs, h⟩ := demand_bind_ok.mp h
  cases h
  refine demand_bind_ok.mpr ⟨?_, demand_bind_ok.mpr ⟨?_, ?_⟩⟩
  · rw [hclear]
    exact hfree
  · rw [hclear]
    exact hrefs
  · rw [hclear]
    rfl

theorem Consistent.commitApproval (h : s.Consistent)
    (hc : s.commitApproval c snapshot = .ok t) : t.Consistent :=
  Consistent.of_damaged [] (h.mended.commitApproval (commitApproval_mended hc)).toConsistent

end Store

end ChangeImpact
