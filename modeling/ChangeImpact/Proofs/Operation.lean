import ChangeImpact.Workflow.Requests
import Mathlib.Data.List.Forall2

/-!
# Reasoning about operations

An operation reads and writes the world and may fail on the way, keeping what it
wrote. `Yields` says what holds of the world that it leaves, one condition for
success and one for failure. Two cases have names: an operation `Decides` when a
failure leaves the world untouched, and it `Succeeds` when it cannot fail. One rule
for each primitive takes an operation apart from the front. `Keeps` is for what no
part of an operation can change, whether it fails or not.
-/

namespace ChangeImpact

/-- Two worlds with the same tables, objects and events. The clock and the supply of
identifiers may have moved on. -/
structure World.Untouched (w w' : World) : Prop where
  store : w'.store = w.store
  objects : w'.objects = w.objects
  events : w'.events = w.events

theorem World.Untouched.refl (w : World) : w.Untouched w := ⟨rfl, rfl, rfl⟩

theorem World.Untouched.trans {u v w : World} (huv : u.Untouched v) (hvw : v.Untouched w) :
    u.Untouched w :=
  ⟨hvw.store.trans huv.store, hvw.objects.trans huv.objects, hvw.events.trans huv.events⟩

namespace Operation

variable {α β : Type}

section Execution

variable (w : World)

@[simp] theorem exec_pure (x : α) : exec (pure x) w = (.ok x, w) := rfl

/-- The second part runs in the world that the first part leaves, unless that failed. -/
theorem exec_bind (a : Operation α) (f : α → Operation β) :
    exec (a >>= f) w = match exec a w with
      | (.ok x, w') => exec (f x) w'
      | (.error e, w') => (.error e, w') := by
  simp only [exec, ExceptT.run, StateT.run, bind, ExceptT.bind, ExceptT.mk, StateT.bind,
    ExceptT.bindCont]
  cases a w with
  | mk result w' => cases result <;> rfl

theorem exec_bind_ok {a : Operation α} {f : α → Operation β} {w w' : World} {x : α}
    (h : exec a w = (.ok x, w')) : exec (a >>= f) w = exec (f x) w' := by
  rw [exec_bind, h]

/-- What has an answer succeeds. -/
theorem exec_eq_ok_of_isSome {a : Operation α} {w : World}
    (h : (exec a w).1.toOption.isSome = true) : ∃ x, exec a w = (.ok x, (exec a w).2) := by
  cases hx : exec a w with
  | mk result w' =>
    rw [hx] at h
    cases result with
    | error e => cases h
    | ok x => exact ⟨x, rfl⟩

theorem exec_bind_error {a : Operation α} {f : α → Operation β} {w w' : World} {e : Failure}
    (h : exec a w = (.error e, w')) : exec (a >>= f) w = (.error e, w') := by
  rw [exec_bind, h]

@[simp] theorem exec_get : exec (get : Operation World) w = (.ok w, w) := rfl

@[simp] theorem exec_set (v : World) : exec (set v : Operation PUnit) w = (.ok ⟨⟩, v) := rfl

theorem exec_read (q : Store → Except Failure α) :
    exec (read q) w = match q w.store with
      | .ok a => (.ok a, w)
      | .error e => (.error e, w) := by
  rw [read, exec_bind, exec_get]
  dsimp only
  cases q w.store <;> rfl

theorem exec_write (f : Store → Except Failure Store) :
    exec (write f) w = match f w.store with
      | .ok s => (.ok (), { w with store := s })
      | .error e => (.error e, w) := by
  rw [write, exec_bind, exec_get]
  dsimp only
  cases f w.store <;> rfl

theorem exec_writeWith (f : Store → Except Failure (α × Store)) :
    exec (writeWith f) w = match f w.store with
      | .ok (a, s) => (.ok a, { w with store := s })
      | .error e => (.error e, w) := by
  rw [writeWith, exec_bind, exec_get]
  dsimp only
  cases f w.store <;> rfl

theorem exec_store (f : Objects → Except Failure Objects) :
    exec (store f) w = match f w.objects with
      | .ok o => (.ok (), { w with objects := o })
      | .error e => (.error e, w) := by
  rw [store, exec_bind, exec_get]
  dsimp only
  cases f w.objects <;> rfl

@[simp] theorem exec_freshId :
    exec freshId w = (.ok (idOf w.issued), { w with issued := w.issued + 1 }) := rfl

@[simp] theorem exec_publish (user : String) (notice : Notice) (subject : String) :
    exec (publish user notice subject) w =
      (.ok ⟨⟩, { w with events := w.events ++ [⟨user, notice, subject⟩] }) := rfl

theorem exec_need (q : Store → Except Failure (Option α)) (what : String) :
    exec (need q what) w = match q w.store with
      | .ok (some a) => (.ok a, w)
      | .ok none => (.error (.notFound what), w)
      | .error e => (.error e, w) := by
  rw [need, exec_bind, exec_read]
  cases q w.store with
  | error e => rfl
  | ok a => cases a <;> rfl

end Execution

/-- Telling several users appends one event for each of them. -/
theorem exec_forM_publish (users : List String) (notice : Notice) (subject : String) (w : World) :
    exec (users.forM fun user => publish user notice subject) w =
      (.ok ⟨⟩, { w with events := w.events ++ users.map (⟨·, notice, subject⟩) }) := by
  induction users generalizing w with
  | nil => simp
  | cons user users ih =>
    rw [List.forM, exec_bind, exec_publish]
    simp only [ih, List.append_assoc, List.map_cons, List.singleton_append]

/-- How the operation ends: a success leaves a world with `Q`, a failure one with `E`. -/
def Yields (a : Operation α) (w : World) (E : World → Prop) (Q : α → World → Prop) : Prop :=
  match exec a w with
  | (.ok x, w') => Q x w'
  | (.error _, w') => E w'

/-- The operation succeeds with `Q`. -/
abbrev Succeeds (a : Operation α) (w : World) (Q : α → World → Prop) : Prop :=
  Yields a w (fun _ => False) Q

/-- The operation either fails and leaves the world untouched, or succeeds with `Q`. -/
abbrev Decides (a : Operation α) (w : World) (Q : α → World → Prop) : Prop :=
  Yields a w w.Untouched Q

section Rules

variable {a : Operation α} {f : α → Operation β} {w w' : World} {E E' : World → Prop}
  {P : α → World → Prop} {Q : β → World → Prop}

theorem Yields.of_ok {x : α} (h : Yields a w E P) (he : exec a w = (.ok x, w')) : P x w' := by
  rw [Yields, he] at h
  exact h

theorem Yields.of_error {e : Failure} (h : Yields a w E P) (he : exec a w = (.error e, w')) :
    E w' := by
  rw [Yields, he] at h
  exact h

theorem Succeeds.exists_ok (h : Succeeds a w P) : ∃ x w', exec a w = (.ok x, w') ∧ P x w' := by
  rw [Succeeds, Yields] at h
  cases he : exec a w with
  | mk result w' =>
    rw [he] at h
    cases result with
    | error e => exact h.elim
    | ok x => exact ⟨x, w', rfl, h⟩

/-- Both conditions may be weakened. -/
theorem Yields.imp {P' : α → World → Prop} (h : Yields a w E P) (he : ∀ v, E v → E' v)
    (hp : ∀ x v, P x v → P' x v) : Yields a w E' P' := by
  rw [Yields] at h ⊢
  cases hx : exec a w with
  | mk result w' =>
    rw [hx] at h
    cases result with
    | error e => exact he w' h
    | ok x => exact hp x w' h

theorem Succeeds.yields (h : Succeeds a w P) : Yields a w E P :=
  Yields.imp h (fun _ hf => hf.elim) fun _ _ hp => hp

/-- What holds of the tables before holds of them afterwards, if a success brings it about and a
failure leaves them alone. -/
theorem Yields.stored {R : Store → Prop} (h : Yields a w E P) (hE : ∀ v, E v → v.store = w.store)
    (hw : R w.store) (hP : ∀ x v, P x v → R v.store) : R (exec a w).2.store := by
  rw [Yields] at h
  cases hx : exec a w with
  | mk result w' =>
    rw [hx] at h
    cases result with
    | error e => exact (hE w' h).symm ▸ hw
    | ok x => exact hP x w' h

/-- How an operation ends says what the world is like afterwards. -/
theorem Yields.world {R : World → Prop} (h : Yields a w E P)
    (hE : ∀ e v, exec a w = (.error e, v) → E v → R v)
    (hP : ∀ x v, exec a w = (.ok x, v) → P x v → R v) : R (exec a w).2 := by
  rw [Yields] at h
  cases hx : exec a w with
  | mk result w' =>
    rw [hx] at h
    cases result with
    | error e => exact hE e w' hx h
    | ok x => exact hP x w' hx h

/-- What an operation answers is part of how it ends. -/
theorem Yields.answered (h : Yields a w E P) :
    Yields a w E fun x v => exec a w = (.ok x, v) ∧ P x v := by
  rw [Yields] at h ⊢
  cases hx : exec a w with
  | mk result w' =>
    rw [hx] at h
    cases result with
    | error e => exact h
    | ok x => exact ⟨rfl, h⟩

/-- When failures leave the tables alone, what changes them succeeds. -/
theorem Yields.of_changed (h : Yields a w E P) (hE : ∀ v, E v → v.store = w.store)
    (hne : (exec a w).2.store ≠ w.store) :
    ∃ x, (exec a w).1 = .ok x ∧ P x (exec a w).2 := by
  rw [Yields] at h
  cases hx : exec a w with
  | mk result w' =>
    rw [hx] at h hne
    cases result with
    | error e => exact absurd (hE w' h) hne
    | ok x => exact ⟨x, rfl, h⟩

theorem Yields.bind (ha : Yields a w E P) (hf : ∀ x v, P x v → Yields (f x) v E Q) :
    Yields (a >>= f) w E Q := by
  rw [Yields, exec_bind]
  rw [Yields] at ha
  cases hx : exec a w with
  | mk result w' =>
    rw [hx] at ha
    cases result with
    | error e => exact ha
    | ok x => exact hf x w' ha

theorem Yields.query {q : Store → α} (h : Yields (f (q w.store)) w E Q) :
    Yields (query q >>= f) w E Q := h

theorem Yields.get {f : World → Operation β} (h : Yields (f w) w E Q) :
    Yields (get >>= f) w E Q := h

theorem Yields.read_ok {q : Store → Except Failure α} {x : α} (hq : q w.store = .ok x)
    (h : Yields (f x) w E Q) : Yields (read q >>= f) w E Q := by
  have he : exec (Operation.read q) w = (.ok x, w) := by rw [exec_read, hq]
  rwa [Yields, exec_bind_ok he]

/-- A read that fails ends the operation where it stands. -/
theorem Yields.read {q : Store → Except Failure α} (hE : (∀ x, q w.store ≠ .ok x) → E w)
    (h : ∀ x, q w.store = .ok x → Yields (f x) w E Q) : Yields (read q >>= f) w E Q := by
  cases hq : q w.store with
  | error e =>
    have he : exec (Operation.read q) w = (.error e, w) := by rw [exec_read, hq]
    rw [Yields, exec_bind_error he]
    refine hE fun x hx => ?_
    rw [hq] at hx
    cases hx
  | ok x => exact Yields.read_ok hq (h x hq)

theorem Yields.need_ok {q : Store → Except Failure (Option α)} {what : String} {x : α}
    (hq : q w.store = .ok (some x)) (h : Yields (f x) w E Q) :
    Yields (need q what >>= f) w E Q := by
  have he : exec (Operation.need q what) w = (.ok x, w) := by rw [exec_need, hq]
  rwa [Yields, exec_bind_ok he]

theorem Yields.need {q : Store → Except Failure (Option α)} {what : String}
    (hE : (∀ x, q w.store ≠ .ok (some x)) → E w)
    (h : ∀ x, q w.store = .ok (some x) → Yields (f x) w E Q) :
    Yields (need q what >>= f) w E Q := by
  have hn := exec_need w q what
  cases hq : q w.store with
  | error e =>
    rw [hq] at hn hE
    rw [Yields, exec_bind_error hn]
    exact hE fun x hx => nomatch hx
  | ok found =>
    cases found with
    | none =>
      rw [hq] at hn hE
      rw [Yields, exec_bind_error hn]
      exact hE fun x hx => nomatch hx
    | some x => exact Yields.need_ok hq (h x hq)

theorem Yields.require {c : Bool} {e : Failure} {f : Unit → Operation β} (hE : c = false → E w)
    (h : c = true → Yields (f ()) w E Q) : Yields (require c e >>= f) w E Q := by
  cases c with
  | false => exact hE rfl
  | true => exact h rfl

/-- A check that comes last. -/
theorem Yields.require_last {c : Bool} {e : Failure} {Q : Unit → World → Prop}
    (hE : c = false → E w) (h : c = true → Q () w) : Yields (ChangeImpact.require c e) w E Q := by
  cases c with
  | false => exact hE rfl
  | true => exact h rfl

theorem Yields.now {f : Instant → Operation β}
    (h : Yields (f w.clock) { w with clock := ⟨w.clock.nanos + tick⟩ } E Q) :
    Yields (now >>= f) w E Q := h

theorem Yields.freshId {f : String → Operation β}
    (h : Yields (f (idOf w.issued)) { w with issued := w.issued + 1 } E Q) :
    Yields (freshId >>= f) w E Q := h

theorem Yields.publish {user subject : String} {notice : Notice} {f : PUnit → Operation β}
    (h : Yields (f ⟨⟩) { w with events := w.events ++ [⟨user, notice, subject⟩] } E Q) :
    Yields (publish user notice subject >>= f) w E Q := h

theorem Yields.forM_publish {users : List String} {subject : String} {notice : Notice}
    {f : PUnit → Operation β}
    (h : Yields (f ⟨⟩) { w with events := w.events ++ users.map (⟨·, notice, subject⟩) } E Q) :
    Yields ((users.forM fun user => Operation.publish user notice subject) >>= f) w E Q := by
  rwa [Yields, exec_bind_ok (exec_forM_publish users notice subject w)]

theorem Yields.write_ok {g : Store → Except Failure Store} {s : Store} {f : Unit → Operation β}
    (hg : g w.store = .ok s) (h : Yields (f ()) { w with store := s } E Q) :
    Yields (write g >>= f) w E Q := by
  have he : exec (Operation.write g) w = (.ok (), { w with store := s }) := by rw [exec_write, hg]
  rwa [Yields, exec_bind_ok he]

/-- A refused write changes nothing. -/
theorem Yields.write {g : Store → Except Failure Store} {f : Unit → Operation β} (hE : E w)
    (h : ∀ s, g w.store = .ok s → Yields (f ()) { w with store := s } E Q) :
    Yields (write g >>= f) w E Q := by
  cases hg : g w.store with
  | error e =>
    have he : exec (Operation.write g) w = (.error e, w) := by rw [exec_write, hg]
    rwa [Yields, exec_bind_error he]
  | ok s => exact Yields.write_ok hg (h s hg)

/-- A write that comes last. -/
theorem Yields.write_last {g : Store → Except Failure Store} {Q : Unit → World → Prop} (hE : E w)
    (h : ∀ s, g w.store = .ok s → Q () { w with store := s }) :
    Yields (Operation.write g) w E Q := by
  rw [Yields, exec_write]
  cases hg : g w.store with
  | error e => exact hE
  | ok s => exact h s hg

theorem Yields.writeWith_ok {g : Store → Except Failure (α × Store)} {x : α} {s : Store}
    (hg : g w.store = .ok (x, s)) (h : Yields (f x) { w with store := s } E Q) :
    Yields (writeWith g >>= f) w E Q := by
  have he : exec (Operation.writeWith g) w = (.ok x, { w with store := s }) := by
    rw [exec_writeWith, hg]
  rwa [Yields, exec_bind_ok he]

theorem Yields.writeWith {g : Store → Except Failure (α × Store)} (hE : E w)
    (h : ∀ x s, g w.store = .ok (x, s) → Yields (f x) { w with store := s } E Q) :
    Yields (writeWith g >>= f) w E Q := by
  cases hg : g w.store with
  | error e =>
    have he : exec (Operation.writeWith g) w = (.error e, w) := by rw [exec_writeWith, hg]
    rwa [Yields, exec_bind_error he]
  | ok r => exact Yields.writeWith_ok hg (h r.1 r.2 hg)

/-- A batch whose parts have answers that fit their arguments and never break `I`. -/
theorem Yields.mapM {f : α → Operation β} {R : α → β → Prop} {I : World → Prop} {xs : List α}
    (hw : I w) (hf : ∀ x ∈ xs, ∀ v, I v → Yields (f x) v E fun y v' => R x y ∧ I v') :
    Yields (xs.mapM f) w E fun ys v => List.Forall₂ R xs ys ∧ I v := by
  induction xs generalizing w with
  | nil => exact ⟨List.Forall₂.nil, hw⟩
  | cons x xs ih =>
    rw [List.mapM_cons]
    refine Yields.bind (hf x (List.mem_cons_self ..) w hw) ?_
    rintro y v ⟨hy, hv⟩
    refine Yields.bind (ih hv fun x' hx' => hf x' (List.mem_cons_of_mem _ hx')) ?_
    rintro ys v' ⟨hys, hv'⟩
    exact ⟨List.Forall₂.cons hy hys, hv'⟩

theorem Yields.forM {f : α → Operation PUnit} {I : World → Prop} {xs : List α}
    (hw : I w) (hf : ∀ x ∈ xs, ∀ v, I v → Yields (f x) v E fun _ v' => I v') :
    Yields (xs.forM f) w E fun _ v => I v := by
  induction xs generalizing w with
  | nil => exact hw
  | cons x xs ih =>
    rw [List.forM]
    refine Yields.bind (hf x (List.mem_cons_self ..) w hw) ?_
    intro _ v hv
    exact ih hv fun x' hx' => hf x' (List.mem_cons_of_mem _ hx')

private theorem Yields.filterAuxM {f : α → Operation Bool} {I : World → Prop} {xs acc : List α}
    (hw : I w) (hf : ∀ x ∈ xs, ∀ v, I v → Yields (f x) v E fun _ v' => I v') :
    Yields (List.filterAuxM f xs acc) w E fun _ v => I v := by
  induction xs generalizing w acc with
  | nil => exact hw
  | cons x xs ih =>
    refine Yields.bind (hf x (List.mem_cons_self ..) w hw) ?_
    intro _ v hv
    exact ih hv fun x' hx' => hf x' (List.mem_cons_of_mem _ hx')

theorem Yields.filterM {f : α → Operation Bool} {I : World → Prop} {xs : List α}
    (hw : I w) (hf : ∀ x ∈ xs, ∀ v, I v → Yields (f x) v E fun _ v' => I v') :
    Yields (xs.filterM f) w E fun _ v => I v :=
  Yields.bind (Yields.filterAuxM hw hf) fun _ _ hv => hv

end Rules

/-! ## Operations on lists -/

/-- A property that goes from the parts of an operation to the whole. -/
structure Composes (P : ∀ α : Type, Operation α → Prop) : Prop where
  pure {α : Type} (x : α) : P α (Pure.pure x)
  bind {α β : Type} {a : Operation α} {f : α → Operation β} (ha : P α a) (hf : ∀ x, P β (f x)) :
    P β (a >>= f)

namespace Composes

variable {P : ∀ α : Type, Operation α → Prop} (h : Composes P)
include h

theorem forM {f : α → Operation PUnit} {xs : List α} (hf : ∀ x, P _ (f x)) : P _ (xs.forM f) := by
  induction xs with
  | nil => exact h.pure _
  | cons x xs ih => exact h.bind (hf x) fun _ => ih

theorem mapM {f : α → Operation β} {xs : List α} (hf : ∀ x, P _ (f x)) : P _ (xs.mapM f) := by
  induction xs with
  | nil => exact h.pure _
  | cons x xs ih =>
    rw [List.mapM_cons]
    exact h.bind (hf x) fun y => h.bind ih fun ys => h.pure _

theorem filterMapM {f : α → Operation (Option β)} {xs : List α} (hf : ∀ x, P _ (f x)) :
    P _ (xs.filterMapM f) := by
  induction xs with
  | nil => exact h.pure _
  | cons x xs ih =>
    rw [List.filterMapM_cons]
    refine h.bind (hf x) fun y => ?_
    cases y with
    | none => exact ih
    | some y => exact h.bind ih fun ys => h.pure _

private theorem filterAuxM {f : α → Operation Bool} {xs acc : List α} (hf : ∀ x, P _ (f x)) :
    P _ (List.filterAuxM f xs acc) := by
  induction xs generalizing acc with
  | nil => exact h.pure _
  | cons x xs ih => exact h.bind (hf x) fun _ => ih

theorem filterM {f : α → Operation Bool} {xs : List α} (hf : ∀ x, P _ (f x)) :
    P _ (xs.filterM f) :=
  h.bind (filterAuxM h hf) fun _ => h.pure _

end Composes

/-! ## What an operation keeps -/

/-- Whatever the operation does, it leaves the tables in relation `r` to what they were. -/
def Keeps (r : Store → Store → Prop) (a : Operation α) : Prop :=
  ∀ w, r w.store (exec a w).2.store

namespace Keeps

variable {r : Store → Store → Prop} {a : Operation α} {f : α → Operation β}

theorem imp {r' : Store → Store → Prop} (ha : Keeps r a) (hr : ∀ s t, r s t → r' s t) :
    Keeps r' a := fun w => hr _ _ (ha w)

variable [IsPreorder Store r]

theorem pure (x : α) : Keeps r (Pure.pure x : Operation α) := fun w => refl_of r w.store

theorem fail (e : Failure) : Keeps r (fail e : Operation α) := fun w => refl_of r w.store

theorem bind (ha : Keeps r a) (hf : ∀ x, Keeps r (f x)) : Keeps r (a >>= f) := by
  intro w
  have hw := ha w
  rw [exec_bind]
  cases hx : exec a w with
  | mk result w' =>
    rw [hx] at hw
    cases result with
    | error e => exact hw
    | ok x => exact trans_of r hw (hf x w')

theorem get : Keeps r (MonadState.get : Operation World) := fun w => refl_of r w.store

theorem query (q : Store → α) : Keeps r (query q) := fun w => refl_of r w.store

theorem read (q : Store → Except Failure α) : Keeps r (read q) := by
  intro w
  rw [exec_read]
  cases q w.store with
  | error e => exact refl_of r w.store
  | ok x => exact refl_of r w.store

theorem need (q : Store → Except Failure (Option α)) (what : String) : Keeps r (need q what) := by
  refine bind (read q) fun found => ?_
  cases found with
  | none => exact fail _
  | some x => exact pure x

theorem require (c : Bool) (e : Failure) : Keeps r (require c e) := by
  cases c with
  | false => exact fail e
  | true => exact pure ()

theorem now : Keeps r now := fun w => refl_of r w.store

theorem freshId : Keeps r freshId := fun w => refl_of r w.store

theorem publish (user : String) (notice : Notice) (subject : String) :
    Keeps r (publish user notice subject) := fun w => refl_of r w.store

theorem store (g : Objects → Except Failure Objects) : Keeps r (store g) := by
  intro w
  rw [exec_store]
  cases g w.objects with
  | error e => exact refl_of r w.store
  | ok o => exact refl_of r w.store

theorem write {g : Store → Except Failure Store} (hg : ∀ s t, g s = .ok t → r s t) :
    Keeps r (write g) := by
  intro w
  rw [exec_write]
  cases h : g w.store with
  | error e => exact refl_of r w.store
  | ok t => exact hg w.store t h

theorem writeWith {g : Store → Except Failure (α × Store)}
    (hg : ∀ s x t, g s = .ok (x, t) → r s t) : Keeps r (writeWith g) := by
  intro w
  rw [exec_writeWith]
  cases h : g w.store with
  | error e => exact refl_of r w.store
  | ok found => exact hg w.store found.1 found.2 h

theorem composes : Composes fun _ a => Keeps r a := ⟨pure, bind⟩

theorem forM {f : α → Operation PUnit} {xs : List α} (hf : ∀ x, Keeps r (f x)) :
    Keeps r (xs.forM f) :=
  composes.forM hf

theorem mapM {xs : List α} (hf : ∀ x, Keeps r (f x)) : Keeps r (xs.mapM f) :=
  composes.mapM hf

theorem filterMapM {f : α → Operation (Option β)} {xs : List α} (hf : ∀ x, Keeps r (f x)) :
    Keeps r (xs.filterMapM f) :=
  composes.filterMapM hf

theorem filterM {f : α → Operation Bool} {xs : List α} (hf : ∀ x, Keeps r (f x)) :
    Keeps r (xs.filterM f) :=
  composes.filterM hf

end Keeps

end Operation

end ChangeImpact
