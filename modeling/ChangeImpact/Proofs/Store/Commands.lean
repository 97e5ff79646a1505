import ChangeImpact.Proofs.Store.Frames
import ChangeImpact.Proofs.Store.Migration
import ChangeImpact.Proofs.Store.Transactions

/-!
# Any sequence of commands

Whatever a database is told to do, its constraints hold afterwards, and what is refused
or breaks off in the middle leaves every table as it was.
-/

namespace ChangeImpact

open Script Store

/-- The operation on the store that a command stands for. -/
def Command.effect : (c : Command) → Store → Except Failure (c.Answer × Store)
  | read q => fun s => do
    let answer ← q s
    pure (answer, s)
  | insertProject p => silently (·.insertProject p)
  | insertComponent c => silently (·.insertComponent c)
  | setComponentStatus ids status => silently fun s => .ok (s.setComponentStatus ids status)
  | addContributor c => silently (·.addContributor c)
  | upsertFile f => (·.upsertFile f)
  | setSymbols id symbols => silently (·.setSymbols id symbols)
  | insertDraft d => silently (·.insertDraft d)
  | replaceGraph project g => silently (·.replaceGraph project g)
  | upsertEdge project e => silently (·.upsertEdge project e)
  | insertRequest r => silently (·.insertRequest r)
  | setStatus id status now => silently (·.setStatus id status now)
  | insertImpacts is => silently (·.insertImpacts is)
  | commitAnalysis id is flagged now => (·.commitAnalysis id is flagged now)
  | acknowledge id time auto => fun s => .ok (s.acknowledge id time auto)
  | dismiss id time => fun s => .ok (s.dismiss id time)
  | annotate id comment => silently fun s => .ok (s.annotate id comment)
  | commitApproval c snapshot => silently (·.commitApproval c snapshot)
  | commitRejection id stabilize resolvedAt =>
    silently fun s => .ok (s.commitRejection id stabilize resolvedAt)

/-- Carried out statement by statement, a command has the effect of the operation that it
stands for, or none. -/
theorem Store.Intact.run_script {s : Store} (h : s.Intact) (c : Command) :
    c.script.run s = atomically c.effect s := by
  cases c with
  | read q => exact run_statement (fun s => q s >>= fun answer => pure (answer, s)) s
  | insertProject p => exact run_write _ s
  | insertComponent c => exact run_write _ s
  | setComponentStatus ids status =>
    exact (performs_writeComponents ids status).run_transaction s
  | addContributor c => exact run_write _ s
  | upsertFile f => exact run_statement (·.upsertFile f) s
  | setSymbols id symbols => exact h.run_setSymbols id symbols
  | insertDraft d => exact run_write _ s
  | replaceGraph project g => exact (performs_writeGraph project g).run_transaction s
  | upsertEdge project e => exact h.run_writeEdge project e
  | insertRequest r => exact run_write _ s
  | setStatus id status now => exact h.run_setStatus id status now
  | insertImpacts is => exact (performs_writeImpacts is).run_transaction s
  | commitAnalysis id is flagged now => exact h.run_writeAnalysis id is flagged now
  | acknowledge id time auto => exact run_change _ s
  | dismiss id time => exact run_change _ s
  | annotate id comment => exact run_write _ s
  | commitApproval c snapshot => exact h.run_writeApproval c snapshot
  | commitRejection id stabilize resolvedAt =>
    exact (performs_writeRejection id stabilize resolvedAt).run_transaction s

theorem Store.Intact.run_of_ok {s t : Store} (h : s.Intact) {c : Command} {answer : c.Answer}
    (he : c.effect s = .ok (answer, t)) : c.script.run s = (.ok answer, t) :=
  (h.run_script c).trans (atomically_of_ok he)

/-- A command that fails changes nothing. -/
theorem Store.Intact.run_of_error {s : Store} (h : s.Intact) {c : Command} {e : Failure}
    (he : c.effect s = .error e) : c.script.run s = (.error e, s) :=
  (h.run_script c).trans (atomically_of_error he)

/-- No command breaks a constraint or touches the schema. -/
theorem Command.grows_effect {s t : Store} {c : Command} {answer : c.Answer}
    (h : c.effect s = .ok (answer, t)) : Grows s t := by
  cases c with
  | read q =>
    obtain ⟨_, -, h⟩ := bind_eq_ok.mp h
    cases h
    exact refl_of Grows s
  | insertProject p => exact (aside_insertProject (silently_eq_ok.mp h)).toGrows
  | insertComponent c => exact (aside_insertComponent (silently_eq_ok.mp h)).toGrows
  | setComponentStatus ids status =>
    cases silently_eq_ok.mp h
    exact (aside_setComponentStatus s ids status).toGrows
  | addContributor c => exact (aside_addContributor (silently_eq_ok.mp h)).toGrows
  | upsertFile f => exact (aside_upsertFile h).toGrows
  | setSymbols id symbols => exact (aside_setSymbols (silently_eq_ok.mp h)).toGrows
  | insertDraft d => exact (aside_insertDraft (silently_eq_ok.mp h)).toGrows
  | replaceGraph project g => exact (aside_replaceGraph (silently_eq_ok.mp h)).toGrows
  | upsertEdge project e => exact (aside_upsertEdge (silently_eq_ok.mp h)).toGrows
  | insertRequest r => exact grows_insertRequest (silently_eq_ok.mp h)
  | setStatus id status now => exact grows_setStatus (silently_eq_ok.mp h)
  | insertImpacts is => exact foldlM_rel (fun _ _ _ => grows_insertImpact) (silently_eq_ok.mp h)
  | commitAnalysis id is flagged now => exact grows_commitAnalysis h
  | acknowledge id time auto =>
    cases h
    exact grows_acknowledge s id time auto
  | dismiss id time =>
    cases h
    exact grows_dismiss s id time
  | annotate id comment =>
    cases silently_eq_ok.mp h
    exact grows_annotate s id comment
  | commitApproval c snapshot => exact grows_commitApproval (silently_eq_ok.mp h)
  | commitRejection id stabilize resolvedAt =>
    cases silently_eq_ok.mp h
    exact grows_commitRejection s id stabilize resolvedAt

/-! ## Histories -/

namespace Store

variable {s : Store}

/-- The store after some commands, whether they fail or not. -/
def after (s : Store) (commands : List Command) : Store :=
  commands.foldl (fun s c => (c.script.run s).2) s

/-- Those of some commands that do not fail, when they are given one after the other. -/
def accepted : Store → List Command → List Command
  | _, [] => []
  | s, c :: commands =>
    let later := accepted (c.script.run s).2 commands
    if (c.script.run s).1.isOk then c :: later else later

/-- What each command that is accepted keeps between those accepted so far and the store holds
after all of them; commands that fail do not count. -/
theorem Intact.history {P : List Command → Store → Prop}
    (hstep : ∀ {done s t} {c : Command} {answer : c.Answer}, s.Intact → P done s →
      c.effect s = .ok (answer, t) → P (done ++ [c]) t)
    (h : s.Intact) {done : List Command} (hdone : P done s) (commands : List Command) :
    (s.after commands).Intact ∧ P (done ++ s.accepted commands) (s.after commands) := by
  induction commands generalizing s done with
  | nil =>
    rw [accepted, List.append_nil]
    exact ⟨h, hdone⟩
  | cons c commands ih =>
    rw [after, List.foldl_cons, ← after, accepted]
    cases he : c.effect s with
    | error e =>
      rw [h.run_of_error he]
      exact ih h hdone
    | ok r =>
      have hgrows : Grows s r.2 := Command.grows_effect he
      have hrun : c.script.run s = (.ok r.1, r.2) := h.run_of_ok he
      have hnext := ih (hgrows.intact h) (hstep h hdone he)
      rw [List.append_assoc] at hnext
      rw [hrun]
      exact hnext

end Store

/-! ## Databases -/

/-- The constraints hold in tables of the current schema. -/
structure Store.Sound (s : Store) : Prop extends s.Intact where
  current : s.schema = Catalog.fresh

/-- The current schema has nothing to create and nothing to migrate. -/
theorem Catalog.migrate_fresh : fresh.createTables.migrate = (.ok (), fresh) := by
  decide +kernel

theorem Store.sound_empty : Sound {} where
  toIntact := intact_empty
  current := rfl

namespace Database

/-- The constraints hold in the tables and in every copy of them. -/
structure Sound (db : Database) : Prop where
  tables : db.tables.Sound
  copies : ∀ c ∈ db.copies, c.2.Sound

variable {db : Database}

theorem Sound.perform_command (h : db.Sound) (c : Command) :
    (Order.command c).perform db =
      match c.effect db.tables with
      | .ok (answer, tables) => (.ok answer, { db with tables })
      | .error e => (.error e, db) := by
  rw [Order.perform]
  cases he : c.effect db.tables with
  | ok r =>
    have hrun : c.script.run db.tables = (.ok r.1, r.2) := h.tables.run_of_ok he
    rw [hrun]
    rfl
  | error e =>
    rw [h.tables.run_of_error he]
    rfl

theorem Sound.perform_initialise (h : db.Sound) : Order.initialise.perform db = (.ok (), db) := by
  have hmigrate : Catalog.migration.run db.tables.schema.createTables =
      (.ok (), db.tables.schema) := by
    rw [Catalog.run_migration, h.tables.current]
    exact Catalog.migrate_fresh
  rw [Order.perform, hmigrate]
  rfl

/-- An order keeps the constraints. -/
theorem Sound.perform (h : db.Sound) (o : Order) : (o.perform db).2.Sound := by
  cases o with
  | command c =>
    rw [h.perform_command c]
    cases he : c.effect db.tables with
    | error e => exact h
    | ok r =>
      have hgrows : Grows db.tables r.2 := Command.grows_effect he
      exact ⟨⟨hgrows.intact h.tables.toIntact, hgrows.schema.trans h.tables.current⟩, h.copies⟩
  | initialise =>
    rw [h.perform_initialise]
    exact h
  | backup name =>
    refine ⟨h.tables, fun c hc => ?_⟩
    rcases List.mem_cons.mp hc with rfl | hc
    · exact h.tables
    · exact h.copies c hc
  | restore name =>
    rw [Order.perform]
    split
    · rename_i copy hfind
      exact ⟨h.copies _ (List.mem_of_find?_eq_some hfind), h.copies⟩
    · exact h

/-- An order that fails changes nothing. -/
theorem Sound.perform_error (h : db.Sound) {o : Order} {e : Failure}
    (he : (o.perform db).1 = .error e) : (o.perform db).2 = db := by
  cases o with
  | command c =>
    rw [h.perform_command c] at he ⊢
    cases hc : c.effect db.tables with
    | error _ => rfl
    | ok r =>
      rw [hc] at he
      cases he
  | initialise => rw [h.perform_initialise]
  | backup name => cases he
  | restore name =>
    rw [Order.perform] at he ⊢
    split
    · rename_i copy hfind
      rw [hfind] at he
      cases he
    · rfl

theorem Sound.after (h : db.Sound) (orders : List Order) : (db.after orders).Sound := by
  induction orders generalizing db with
  | nil => exact h
  | cons o orders ih => exact ih (h.perform o)

theorem sound_fresh : Sound {} where
  tables := sound_empty
  copies := by
    intro c hc
    cases hc

/-- From an initialised database on, every sequence of orders, whether they succeed or not,
keeps the constraints of the tables, and an order that fails leaves the tables and their
copies as they are. -/
theorem consistent_and_atomic (orders : List Order) :
    (after {} orders).tables.Consistent ∧
      ∀ (o : Order) (e : Failure), (o.perform (after {} orders)).1 = .error e →
        (o.perform (after {} orders)).2 = after {} orders := by
  have h := sound_fresh.after orders
  exact ⟨h.tables.toConsistent, fun _ _ => h.perform_error⟩

/-- A project with a request whose analysis is due. -/
def sampleOrders : List Order :=
  [.command (.insertProject { id := "p", name := "P", owner := "o", strictness := .visibility }),
   .command (.insertComponent { id := "c", project := "p", name := "C", status := .stable }),
   .command (.insertRequest
     { id := "r", project := "p", component := "c", author := "a", title := "", description := ""
       status := .pendingAnalysis, createdAt := ⟨0⟩, updatedAt := ⟨0⟩ })]

/-- An impact of that request, twice. -/
def sampleImpacts : List Impact :=
  let i : Impact :=
    { id := "i", change := "r", component := "c", contributor := "a", createdAt := ⟨0⟩ }
  [i, i]

/-- The analysis breaks off at the second impact, which repeats the identifier of the first;
the claim on the request goes with it. -/
theorem sample_analysis_undone :
    let db := after {} sampleOrders
    let order := Order.command (.commitAnalysis "r" sampleImpacts ["c"] ⟨1⟩)
    (order.perform db).1 = .error (.duplicateKey "change_impacts" ["id"]) ∧
      (order.perform db).2 = db :=
  ⟨rfl, (consistent_and_atomic sampleOrders).2 _ _ rfl⟩

end Database

end ChangeImpact
