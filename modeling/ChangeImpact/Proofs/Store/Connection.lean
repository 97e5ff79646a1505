import ChangeImpact.Store.Connection

/-!
# Reasoning about scripts

In a transaction statements see what the ones before them did, and a failure leaves
what is stored alone. So a script in a transaction does to its copy what its
statements do one after the other: `Performs` says so and has one rule for each
way of putting scripts together. Committed at the end, the script is done as a whole
or not at all.
-/

namespace ChangeImpact

namespace Connection

variable {σ : Type} (c : Connection σ) (s t : σ)

@[simp] theorem put_seen : c.put c.seen = c := by
  obtain ⟨stored, copies⟩ := c
  cases copies <;> rfl

@[simp] theorem seen_put : (c.put s).seen = s := by
  obtain ⟨stored, copies⟩ := c
  cases copies <;> rfl

@[simp] theorem put_put : (c.put s).put t = c.put t := by
  obtain ⟨stored, copies⟩ := c
  cases copies <;> rfl

end Connection

namespace Script

variable {σ α β : Type}

section Execution

variable (c : Connection σ)

/-- The second part finds the connection as the first part leaves it, unless that failed. -/
theorem exec_bind (a : Script σ α) (f : α → Script σ β) :
    exec (a >>= f) c = match exec a c with
      | (.ok x, c') => exec (f x) c'
      | (.error e, c') => (.error e, c') := by
  simp only [exec, ExceptT.run, StateT.run, bind, ExceptT.bind, ExceptT.mk, StateT.bind,
    ExceptT.bindCont]
  cases a c with
  | mk result c' => cases result <;> rfl

theorem exec_bind_of_ok {a : Script σ α} {f : α → Script σ β} {c c' : Connection σ} {x : α}
    (h : exec a c = (.ok x, c')) : exec (a >>= f) c = exec (f x) c' := by
  rw [exec_bind, h]

theorem exec_bind_of_error {a : Script σ α} {f : α → Script σ β} {c c' : Connection σ}
    {e : Failure} (h : exec a c = (.error e, c')) : exec (a >>= f) c = (.error e, c') := by
  rw [exec_bind, h]

theorem exec_statement (f : σ → Except Failure (α × σ)) :
    exec (statement f) c = match f c.seen with
      | .ok (x, s) => (.ok x, c.put s)
      | .error e => (.error e, c) := by
  have hget : exec (get : Script σ (Connection σ)) c = (.ok c, c) := rfl
  rw [statement, exec_bind_of_ok hget]
  cases f c.seen with
  | ok r => rfl
  | error e => rfl

variable {c}

theorem exec_statement_of_ok {f : σ → Except Failure (α × σ)} {x : α} {s : σ}
    (h : f c.seen = .ok (x, s)) : exec (statement f) c = (.ok x, c.put s) := by
  rw [exec_statement, h]

theorem exec_statement_of_error {f : σ → Except Failure (α × σ)} {e : Failure}
    (h : f c.seen = .error e) : exec (statement f) c = (.error e, c) := by
  rw [exec_statement, h]

variable (c)

@[simp] theorem exec_start : exec start c = (.ok (), c.opened) := rfl

/-- What fails goes on with what is done about it, on the connection as it is then. -/
theorem exec_tryCatch (a : Script σ α) (f : Failure → Script σ α) :
    exec (tryCatch a f) c = match exec a c with
      | (.ok x, c') => (.ok x, c')
      | (.error e, c') => exec (f e) c' := by
  simp only [exec, ExceptT.run, StateT.run, tryCatch, tryCatchThe, MonadExceptOf.tryCatch,
    ExceptT.tryCatch, ExceptT.mk, bind, StateT.bind]
  cases a c with
  | mk result c' => cases result <;> rfl

/-- An attempt always succeeds. -/
theorem exec_attempt (a : Script σ Unit) : exec (attempt a) c = (.ok (), (exec a c).2) := by
  rw [attempt, exec_tryCatch]
  cases exec a c with
  | mk result c' => cases result <;> rfl

end Execution

/-! ## All or nothing -/

/-- Change what is stored as a whole, or not at all. -/
def atomically (f : σ → Except Failure (α × σ)) (s : σ) : Except Failure α × σ :=
  match f s with
  | .ok (x, t) => (.ok x, t)
  | .error e => (.error e, s)

theorem atomically_of_ok {f : σ → Except Failure (α × σ)} {s t : σ} {x : α}
    (h : f s = .ok (x, t)) : atomically f s = (.ok x, t) := by
  rw [atomically, h]

theorem atomically_of_error {f : σ → Except Failure (α × σ)} {s : σ} {e : Failure}
    (h : f s = .error e) : atomically f s = (.error e, s) := by
  rw [atomically, h]

/-- Only the given store counts. -/
theorem atomically_congr {f g : σ → Except Failure (α × σ)} {s : σ} (h : f s = g s) :
    atomically f s = atomically g s := by
  rw [atomically, atomically, h]

/-- A change without an answer. -/
def silently (f : σ → Except Failure σ) (s : σ) : Except Failure (Unit × σ) := do
  let s ← f s
  pure ((), s)

theorem silently_of_ok {f : σ → Except Failure σ} {s t : σ} (h : f s = .ok t) :
    silently f s = .ok ((), t) :=
  congrArg (· >>= fun t => pure ((), t)) h

theorem silently_of_error {f : σ → Except Failure σ} {s : σ} {e : Failure}
    (h : f s = .error e) : silently f s = .error e :=
  congrArg (· >>= fun t => pure ((), t)) h

/-- A change without an answer succeeds with what it makes of the state. -/
theorem silently_eq_ok {f : σ → Except Failure σ} {s t : σ} {x : Unit} :
    silently f s = .ok (x, t) ↔ f s = .ok t := by
  cases hf : f s with
  | ok u => simp [silently_of_ok hf]
  | error e => simp [silently_of_error hf]

theorem exec_write_of_ok {c : Connection σ} {f : σ → Except Failure σ} {s : σ}
    (h : f c.seen = .ok s) : exec (write f) c = (.ok (), c.put s) :=
  exec_statement_of_ok (silently_of_ok h)

theorem exec_write_of_error {c : Connection σ} {f : σ → Except Failure σ} {e : Failure}
    (h : f c.seen = .error e) : exec (write f) c = (.error e, c) :=
  exec_statement_of_error (silently_of_error h)

theorem exec_change (f : σ → α × σ) (c : Connection σ) :
    exec (change f) c = (.ok (f c.seen).1, c.put (f c.seen).2) :=
  exec_statement_of_ok rfl

/-- A statement outside of a transaction is stored as a whole or not at all. -/
theorem run_statement (f : σ → Except Failure (α × σ)) (s : σ) :
    run (statement f) s = atomically f s := by
  cases hf : f s with
  | ok r => rw [run, exec_statement_of_ok (x := r.1) hf, atomically_of_ok hf]; rfl
  | error e => rw [run, exec_statement_of_error hf, atomically_of_error hf]

theorem run_write (f : σ → Except Failure σ) (s : σ) :
    run (write f) s = atomically (silently f) s :=
  run_statement _ s

theorem run_change (f : σ → α × σ) (s : σ) : run (change f) s = ((.ok (f s).1), (f s).2) :=
  run_statement _ s

/-! ## Transactions -/

/-- In a transaction a script does to the innermost copy what `f` does. When it fails,
nothing but that copy has changed. -/
structure Performs (a : Script σ α) (f : σ → Except Failure (α × σ)) : Prop where
  ok : ∀ {stored s t outer x}, f s = .ok (x, t) →
    exec a ⟨stored, s :: outer⟩ = (.ok x, ⟨stored, t :: outer⟩)
  error : ∀ {stored s outer e}, f s = .error e →
    ∃ t, exec a ⟨stored, s :: outer⟩ = (.error e, ⟨stored, t :: outer⟩)

theorem performs_pure (x : α) : Performs (pure x : Script σ α) fun s => .ok (x, s) where
  ok := by
    rintro _ _ _ _ _ ⟨⟩
    rfl
  error := by
    rintro _ _ _ _ ⟨⟩

theorem performs_statement (f : σ → Except Failure (α × σ)) : Performs (statement f) f where
  ok hf := exec_statement_of_ok hf
  error hf := ⟨_, exec_statement_of_error hf⟩

theorem performs_write (f : σ → Except Failure σ) : Performs (write f) (silently f) :=
  performs_statement _

namespace Performs

variable {a : Script σ α} {f : σ → Except Failure (α × σ)}

/-- What a script performs may be described in another way. -/
theorem congr (h : Performs a f) {g : σ → Except Failure (α × σ)} (hg : ∀ s, f s = g s) :
    Performs a g := by
  rwa [show g = f from funext fun s => (hg s).symm]

theorem bind (h : Performs a f) {b : α → Script σ β} {g : α → σ → Except Failure (β × σ)}
    (hb : ∀ x, Performs (b x) (g x)) :
    Performs (a >>= b) fun s => f s >>= fun r => g r.1 r.2 where
  ok {stored s t outer y} hfg := by
    cases hf : f s with
    | ok r =>
      rw [hf] at hfg
      rw [exec_bind_of_ok (h.ok (x := r.1) hf)]
      exact (hb r.1).ok hfg
    | error e =>
      rw [hf] at hfg
      cases hfg
  error {stored s outer e} hfg := by
    cases hf : f s with
    | ok r =>
      rw [hf] at hfg
      rw [exec_bind_of_ok (h.ok (x := r.1) hf)]
      exact (hb r.1).error hfg
    | error e' =>
      rw [hf] at hfg
      cases hfg
      obtain ⟨t, ht⟩ : ∃ t, exec a ⟨stored, s :: outer⟩ = (.error e, ⟨stored, t :: outer⟩) :=
        h.error hf
      exact ⟨t, exec_bind_of_error ht⟩

/-- Two changes one after the other. -/
theorem seq {a b : Script σ Unit} {f g : σ → Except Failure σ} (ha : Performs a (silently f))
    (hb : Performs b (silently g)) :
    Performs (a >>= fun _ => b) (silently fun s => f s >>= g) := by
  refine (ha.bind fun _ => hb).congr fun s => ?_
  simp only [silently, bind_assoc, pure_bind]

/-- The same change for each member of a list. -/
theorem forM {a : β → Script σ Unit} {f : β → σ → Except Failure σ}
    (h : ∀ x, Performs (a x) (silently (f x))) (xs : List β) :
    Performs (xs.forM a) (silently fun s => xs.foldlM (fun s x => f x s) s) := by
  induction xs with
  | nil => exact performs_pure ()
  | cons x xs ih => exact (h x).seq ih

/-- A transaction that is committed at its end is done as a whole or not at all. -/
theorem run_transaction (h : Performs a f) (s : σ) : run (transaction a) s = atomically f s := by
  rw [run, transaction, exec_bind_of_ok (exec_start _)]
  cases hf : f s with
  | ok r =>
    have ha : exec a (Connection.opened ⟨s, []⟩) = (.ok r.1, ⟨s, [r.2]⟩) := h.ok hf
    rw [exec_bind_of_ok ha, atomically_of_ok hf]
    rfl
  | error e =>
    obtain ⟨t, ha⟩ : ∃ t, exec a (Connection.opened ⟨s, []⟩) = (.error e, ⟨s, [t]⟩) := h.error hf
    rw [exec_bind_of_error ha, atomically_of_error hf]

-- Outside of a transaction, what was done before the failure stays.
example :
    let a : Script Nat Unit := do
      write fun n => .ok (n + 1)
      throw .unreadable
    (run (transaction a) 0, run a 0) = ((.error .unreadable, 0), (.error .unreadable, 1)) :=
  rfl

end Performs

end Script

end ChangeImpact
