import ChangeImpact.Proofs.Store.Connection
import ChangeImpact.Proofs.Store.Intact
import ChangeImpact.Store.Database

/-!
# Commands as a whole

Statement by statement, in a transaction where there are several, a command does
what the operation on the store does as a whole. Where its statements check
or count something else than the operation does, the keys of an intact store make
the difference vanish: at most one row has an identifier, at most one edge a key, and
a new snapshot has no files.
-/

namespace ChangeImpact

open Script

namespace Store

variable {s : Store}

/-! ## Rows that have to be there -/

/-- A statement that has to write a row is refused afterwards if it wrote none. That is as
good as refusing it beforehand, because without a row it changes nothing. -/
theorem run_writeOne {f : Store → Nat × Store} {missing : Failure}
    {op : Store → Except Failure Store}
    (hnone : (f s).1 = 0 → op s = .error missing ∧ (f s).2 = s)
    (hsome : (f s).1 ≠ 0 → op s = .ok (f s).2) :
    run (writeOne f missing) s = atomically (silently op) s := by
  have hexec : exec (change f) ⟨s, []⟩ = (.ok (f s).1, ⟨(f s).2, []⟩) :=
    exec_change f _
  rw [run, writeOne, exec_bind, hexec]
  by_cases hn : (f s).1 = 0
  · obtain ⟨hop, hself⟩ := hnone hn
    simp only [if_pos hn, hself, atomically, silently, hop]
    rfl
  · simp only [if_neg hn, atomically, silently, hsome hn]
    rfl

theorem Intact.run_setSymbols (h : s.Intact) (id : String) (symbols : Option ParsedFile) :
    run (writeOne (·.writeSymbols id symbols) (.notFound ("project file " ++ id))) s =
      atomically (silently (·.setSymbols id symbols)) s := by
  apply run_writeOne
  · intro hn
    have hself : (s.writeSymbols id symbols).2 = s := by
      simp only [writeSymbols, updateWhere_of_countP_eq_zero hn]
      exact mend_eq_self h.readable _ _
    rw [Store.setSymbols, hasFile, countP_eq_zero_iff.mp hn]
    exact ⟨rfl, hself⟩
  · intro hn
    rw [Store.setSymbols, hasFile, eq_true_of_ne_false (mt countP_eq_zero_iff.mpr hn)]
    rfl

theorem Intact.run_setStatus (h : s.Intact) (id : String) (status : ChangeStatus)
    (now : Instant) :
    run (writeOne (·.writeStatus id status now) (.notFound ("change request " ++ id))) s =
      atomically (silently (·.setStatus id status now)) s := by
  apply run_writeOne
  · intro hn
    have hself : (s.writeStatus id status now).2 = s := by
      simp only [writeStatus, Store.updateRequest, updateWhere_of_countP_eq_zero hn]
      exact mend_eq_self h.readable _ _
    rw [Store.setStatus, hasRequest, countP_eq_zero_iff.mp hn]
    exact ⟨rfl, hself⟩
  · intro hn
    rw [Store.setStatus, hasRequest, eq_true_of_ne_false (mt countP_eq_zero_iff.mpr hn)]
    rfl

/-! ## Several rows -/

/-- A status is given to one component after the other. -/
theorem setComponentStatus_cons (id : String) (ids : List String) (status : ComponentStatus)
    (s : Store) :
    (s.setComponentStatus [id] status).setComponentStatus ids status =
      s.setComponentStatus (id :: ids) status := by
  have hrows : updateWhere (fun c => ids.contains c.id) (fun c => { c with status })
      (updateWhere (fun c => [id].contains c.id) (fun c => { c with status }) s.components) =
        updateWhere (fun c => (id :: ids).contains c.id) (fun c => { c with status })
          s.components := by
    rw [updateWhere, updateWhere, updateWhere, List.map_map]
    apply List.map_congr_left
    intro c _
    by_cases hid : c.id = id
    · simp [hid]
    · simp [hid]
  have hcells : (s.damaged.filter fun c =>
        c.column ≠ .componentStatus || !([id].contains c.row)).filter (fun c =>
        c.column ≠ .componentStatus || !(ids.contains c.row)) =
      s.damaged.filter fun c => c.column ≠ .componentStatus || !((id :: ids).contains c.row) := by
    rw [List.filter_filter]
    congr 1
    funext c
    by_cases hid : c.row = id
    · simp +contextual [hid]
    · simp [hid]
  simp only [setComponentStatus, mend]
  rw [hrows, hcells]

theorem performs_writeComponents (ids : List String) (status : ComponentStatus) :
    Performs (writeComponents ids status)
      (silently fun s => .ok (s.setComponentStatus ids status)) := by
  induction ids with
  | nil =>
    refine (performs_pure ()).congr fun s => ?_
    rw [silently, setComponentStatus_nil]
    rfl
  | cons id ids ih =>
    refine ((performs_write _).seq ih).congr fun s => ?_
    change Except.ok ((), (s.setComponentStatus [id] status).setComponentStatus ids status) = _
    rw [setComponentStatus_cons]
    rfl

theorem performs_writeImpacts (is : List Impact) :
    Performs (writeImpacts is) (silently (·.insertImpacts is)) :=
  Performs.forM (fun _ => performs_write _) is

theorem performs_writeFindings (is : List Impact) (flagged : List String) :
    Performs (writeFindings is flagged) (silently fun s => do
      let t ← s.insertImpacts is
      .ok (t.setComponentStatus flagged .flagged)) :=
  (performs_writeImpacts is).seq (performs_writeComponents flagged .flagged)

theorem performs_writeGraph (project : String) (g : DependencyGraph) :
    Performs (writeGraph project g) (silently (·.replaceGraph project g)) :=
  (performs_write _).seq ((performs_write _).seq
    ((Performs.forM (fun _ => performs_write _) g.edges).seq
      (Performs.forM (fun _ => performs_write _) g.external)))

theorem performs_writeRejection (id : String) (stabilize : List String) (resolvedAt : Instant) :
    Performs (writeRejection id stabilize resolvedAt)
      (silently fun s => .ok (s.commitRejection id stabilize resolvedAt)) :=
  (performs_writeComponents stabilize .stable).seq (performs_write _)

/-! ## Edges -/

/-- The edge whose symbols were read is the one that is written: there is no other with its
key. -/
theorem Intact.mergeEdge_eq (h : s.Intact) {project : String} {e : DependencyEdge}
    (he : e.source ≠ e.target) :
    s.mergeEdge project { e with symbols := joinedSymbols e (s.edgeSymbols? project e) } =
      s.upsertEdge project e := by
  have hconnects : connects project { e with
      symbols := joinedSymbols e (s.edgeSymbols? project e) } = connects project e := rfl
  rw [mergeEdge, Store.upsertEdge, hconnects]
  simp only [decide_eq_true he]
  cases hfind : s.edges.find? (connects project e) with
  | none =>
    have hany : s.edges.any (connects project e) = false := by
      rw [List.any_eq_false]
      exact List.find?_eq_none.mp hfind
    have hsymbols : joinedSymbols e (s.edgeSymbols? project e) = e.symbols := by
      rw [edgeSymbols?, hfind]
      rfl
    rw [hany, hsymbols]
    rfl
  | some row =>
    have hrow := List.mem_of_find?_eq_some hfind
    have hkey := connects_iff.mp (List.find?_some hfind)
    have hany : s.edges.any (connects project e) = true :=
      List.any_eq_true.mpr ⟨row, hrow, List.find?_some hfind⟩
    have hsymbols : joinedSymbols e (s.edgeSymbols? project e) =
        Ordered.union e.symbols row.edge.symbols := by
      rw [edgeSymbols?, hfind]
      rfl
    have hrows : updateWhere (connects project e) (fun other : StoredEdge =>
          { other with edge := { other.edge with
              symbols := Ordered.union e.symbols row.edge.symbols, confidence := e.confidence } })
          s.edges =
        updateWhere (connects project e) (fun other : StoredEdge =>
          { other with edge := { other.edge with
              symbols := Ordered.union e.symbols other.edge.symbols
              confidence := e.confidence } })
          s.edges := by
      refine updateWhere_congr (fun _ _ => rfl) ?_
      intro other hother hp
      rw [h.edgeKeys.eq_of_key_eq hother hrow ((connects_iff.mp hp).trans hkey.symm)]
    rw [hany, hsymbols]
    exact congrArg (fun edges => Except.ok { s with edges }) hrows

theorem Intact.run_writeEdge (h : s.Intact) (project : String) (e : DependencyEdge) :
    run (writeEdge project e) s = atomically (silently (·.upsertEdge project e)) s := by
  rw [writeEdge]
  by_cases he : e.source = e.target
  · have hrefused : s.upsertEdge project e =
        .error (.index ("self edge on component " ++ e.source)) := by
      rw [Store.upsertEdge, decide_eq_false (not_not.mpr he)]
      rfl
    rw [if_pos he, atomically, silently, hrefused]
    rfl
  · rw [if_neg he]
    have hperforms := (performs_statement fun s : Store =>
      Except.ok (s.edgeSymbols? project e, s)).bind fun stored =>
        performs_write (·.mergeEdge project { e with symbols := joinedSymbols e stored })
    refine (hperforms.run_transaction s).trans (atomically_congr ?_)
    exact congrArg (· >>= fun t => pure ((), t)) (h.mergeEdge_eq he)

/-! ## Analyses -/

/-- The row that is claimed is the one with the identifier. -/
theorem Intact.claim_eq (h : s.Intact) {id : String} {now : Instant}
    (hp : (s.requests.any fun r => r.id = id && s.statusIs r .pendingAnalysis) = true) :
    (s.claim id now).2 = s.updateRequest id fun r =>
      { r with status := .analysisComplete, updatedAt := now } := by
  obtain ⟨row, hrow, hpending⟩ := List.any_eq_true.mp hp
  have hid : row.id = id := by
    rw [Bool.and_eq_true] at hpending
    exact of_decide_eq_true hpending.1
  have hsame : ∀ r ∈ s.requests,
      (decide (r.id = id) && s.statusIs r .pendingAnalysis) = decide (r.id = id) := by
    intro r hr
    by_cases hr' : r.id = id
    · rw [h.requestIds.eq_of_key_eq hr hrow (hr'.trans hid.symm), hpending, decide_eq_true hid]
    · rw [decide_eq_false hr', Bool.false_and]
  rw [claim, Store.updateRequest, updateWhere_congr hsame fun _ _ _ => rfl]
  exact (mend_eq_self (by exact h.readable) _ _).symm

theorem Intact.run_writeAnalysis (h : s.Intact) (id : String) (is : List Impact)
    (flagged : List String) (now : Instant) :
    run (writeAnalysis id is flagged now) s =
      atomically (·.commitAnalysis id is flagged now) s := by
  have hclaim : exec (change (·.claim id now)) (Connection.opened ⟨s, []⟩) =
      (.ok (s.claim id now).1, ⟨s, [(s.claim id now).2]⟩) :=
    exec_change (fun t : Store => t.claim id now) ⟨s, [s]⟩
  rw [run, writeAnalysis, exec_bind_of_ok (exec_start _), exec_bind_of_ok hclaim, atomically,
    Store.commitAnalysis]
  by_cases hn : (s.claim id now).1 = 0
  · rw [if_pos hn, countP_eq_zero_iff.mp hn]
    rfl
  · have hany := eq_true_of_ne_false (mt countP_eq_zero_iff.mpr hn)
    rw [if_neg hn, h.claim_eq hany, if_pos hany]
    generalize s.updateRequest id (fun r =>
      { r with status := .analysisComplete, updatedAt := now }) = u
    cases hi : u.insertImpacts is with
    | ok t =>
      have hfound : exec (writeFindings is flagged) ⟨s, [u]⟩ =
          (.ok (), ⟨s, [t.setComponentStatus flagged .flagged]⟩) :=
        (performs_writeFindings is flagged).ok (silently_of_ok (congrArg (· >>= _) hi))
      rw [exec_bind_of_ok hfound]
      rfl
    | error e =>
      obtain ⟨t, hfailed⟩ : ∃ t, exec (writeFindings is flagged) ⟨s, [u]⟩ = (.error e, ⟨s, [t]⟩) :=
        (performs_writeFindings is flagged).error (silently_of_error (congrArg (· >>= _) hi))
      rw [exec_bind_of_error hfailed]
      rfl

/-! ## Approvals -/

/-- Rows with keys of their own are added one after the other. -/
theorem foldlM_insertSnapshotFile {rows : List StoredSnapshotFile}
    (hkeys : Keyed (fun f => (f.snapshot, f.file.file)) (s.snapshotFiles ++ rows))
    (hsnapshots : ∀ row ∈ rows, s.snapshots.any (·.id = row.snapshot) = true) :
    rows.foldlM (fun s row => s.insertSnapshotFile row) s =
      .ok { s with snapshotFiles := s.snapshotFiles ++ rows } := by
  induction rows generalizing s with
  | nil =>
    rw [List.append_nil]
    rfl
  | cons row rows ih =>
    have hfree : (!s.snapshotFiles.any fun r =>
        r.snapshot = row.snapshot && r.file.file = row.file.file) = true := by
      rw [Bool.not_eq_true', List.any_eq_false]
      intro r hr hsame
      have hne := hkeys.ne_of_append hr List.mem_cons_self
      simp only [Bool.and_eq_true, decide_eq_true_eq] at hsame
      exact hne (Prod.ext hsame.1 hsame.2)
    have hrow : s.insertSnapshotFile row =
        .ok { s with snapshotFiles := s.snapshotFiles ++ [row] } := by
      rw [insertSnapshotFile, hfree, hsnapshots row List.mem_cons_self]
      rfl
    rw [List.append_cons] at hkeys
    have hrest := ih (s := { s with snapshotFiles := s.snapshotFiles ++ [row] }) hkeys fun r hr =>
      hsnapshots r (List.mem_cons_of_mem _ hr)
    dsimp only at hrest
    rw [← List.append_cons] at hrest
    rw [List.foldlM_cons, hrow]
    exact hrest

/-- A new snapshot has no files yet, so none of those that it gets can be there. -/
theorem Intact.insertSnapshot_copyFiles (h : s.Intact) (n : Snapshot) :
    (s.insertSnapshot n >>= fun t => t.copyFiles n.id n.project) = s.takeSnapshot n := by
  cases hk : !s.snapshots.any (·.id = n.id) with
  | false =>
    rw [insertSnapshot, Store.takeSnapshot, hk]
    rfl
  | true =>
    cases hr : s.hasProject n.project && n.change.all s.hasRequest with
    | false =>
      rw [insertSnapshot, Store.takeSnapshot, hk, hr]
      rfl
    | true =>
      have htake : s.takeSnapshot n = .ok { s with
          snapshots := s.snapshots ++ [n]
          snapshotFiles := s.snapshotFiles ++
            (s.files.filter (·.project = n.project)).map fun f =>
              { snapshot := n.id, file := snapshotFile f } } := by
        rw [Store.takeSnapshot, hk, hr]
        rfl
      have hkeys := (h.takeSnapshot htake).snapshotFileKeys
      rw [insertSnapshot, hk, hr, htake]
      refine foldlM_insertSnapshotFile hkeys ?_
      intro row hrow
      obtain ⟨f, -, rfl⟩ := List.mem_map.mp hrow
      simp

/-- The drafts are promoted one after the other. -/
theorem performs_promote (ps : List PromotedFile) :
    Performs (ps.forM promoteDraft)
      (silently fun s => .ok (ps.foldl (fun s p => s.promote p) s)) := by
  induction ps with
  | nil => exact performs_pure ()
  | cons p ps ih => exact ((performs_write _).seq (performs_write _)).seq ih

/-- The rows of an approval are written one after the other, then the snapshot is taken. -/
theorem performs_writeApproval (c : ApprovalCommit) (snapshot : String) :
    Performs (writeApproval c snapshot) (silently fun s => do
      let t := ((c.promoted.foldl (fun s p => s.promote p) s).setComponentStatus
        c.stabilize .stable).close c.change .approved c.resolvedAt
      let u ← t.insertSnapshot
        { id := snapshot, project := c.project, change := some c.change
          createdAt := c.resolvedAt }
      u.copyFiles snapshot c.project) :=
  (performs_promote c.promoted).seq
    ((performs_writeComponents c.stabilize .stable).seq
      ((performs_write _).seq ((performs_write _).seq (performs_write _))))

theorem Intact.run_writeApproval (h : s.Intact) (c : ApprovalCommit) (snapshot : String) :
    run (transaction (writeApproval c snapshot)) s =
      atomically (silently (·.commitApproval c snapshot)) s := by
  have hclosed := ((h.promoteAll c.promoted).setComponentStatus c.stabilize .stable).close
    c.change .approved c.resolvedAt
  refine ((performs_writeApproval c snapshot).run_transaction s).trans (atomically_congr ?_)
  exact congrArg (· >>= fun t => pure ((), t)) (hclosed.insertSnapshot_copyFiles _)

end Store

end ChangeImpact
