import ChangeImpact.Proofs.Objects.Stored
import Mathlib.Data.List.Induction

/-!
# The contract of object stores

An object store answers four calls. Its contract is about whole runs: what is got under a key
are the octets of the last successful call that wrote it, the key is held exactly when octets
are got, and calls for other keys change neither. Which keys count as the same is for each
store to say. The store in memory keeps the contract with every key standing for itself.
-/

namespace ChangeImpact

/-- An object store: its first state and its four calls. -/
structure ObjectStore (σ : Type) where
  /-- The state without objects. -/
  empty : σ
  /-- Store octets under a key. -/
  put : σ → String → Bytes → Except Failure Unit × σ
  /-- The octets under a key. -/
  get : σ → String → Except Failure Bytes
  /-- Whether there is an object under a key. -/
  holds : σ → String → Except Failure Bool
  /-- Remove the object under a key. -/
  delete : σ → String → Except Failure Unit × σ

/-- A call of an object store. -/
inductive ObjectCall where
  | put (key : String) (data : Bytes)
  | get (key : String)
  | holds (key : String)
  | delete (key : String)
deriving DecidableEq, Repr

/-- The key that a call is about. -/
def ObjectCall.key : ObjectCall → String
  | put key _ | get key | holds key | delete key => key

/-- What a successful call wrote: a key with its content, without one after a deletion. -/
structure ObjectWrite where
  key : String
  content : Option Bytes
deriving DecidableEq, Repr

/-- The content that was written last under the keys in question. -/
def lastWritten (p : String → Bool) (writes : List ObjectWrite) : Option Bytes :=
  (writes.reverse.find? fun w => p w.key).bind (·.content)

/-- The content under the keys in question once something more may have been written. -/
def overwrite (p : String → Bool) (old : Option Bytes) : Option ObjectWrite → Option Bytes
  | some w => if p w.key then w.content else old
  | none => old

/-- What is written last is what stays. -/
theorem lastWritten_append (p : String → Bool) (writes : List ObjectWrite)
    (write : Option ObjectWrite) :
    lastWritten p (writes ++ write.toList) = overwrite p (lastWritten p writes) write := by
  cases write with
  | none => exact congrArg _ (List.append_nil writes)
  | some w =>
    rw [lastWritten, Option.toList_some, List.reverse_append, List.reverse_singleton,
      List.singleton_append, List.find?_cons, overwrite]
    cases p w.key with
    | true => rfl
    | false => rfl

namespace ObjectStore

variable {σ : Type}

/-- The state after a call. -/
def step (S : ObjectStore σ) (s : σ) : ObjectCall → σ
  | .put key data => (S.put s key data).2
  | .delete key => (S.delete s key).2
  | .get _ | .holds _ => s

/-- What a call writes if it succeeds. -/
def write? (S : ObjectStore σ) (s : σ) : ObjectCall → Option ObjectWrite
  | .put key data => (S.put s key data).1.toOption.map fun _ => ⟨key, some data⟩
  | .delete key => (S.delete s key).1.toOption.map fun _ => ⟨key, none⟩
  | .get _ | .holds _ => none

/-- The state after a run from the empty store. -/
def run (S : ObjectStore σ) (calls : List ObjectCall) : σ :=
  calls.foldl S.step S.empty

/-- What the successful calls from a state on write, in their order. -/
def writesFrom (S : ObjectStore σ) : σ → List ObjectCall → List ObjectWrite
  | _, [] => []
  | s, call :: calls => (S.write? s call).toList ++ S.writesFrom (S.step s call) calls

/-- What the successful calls of a run write, in their order. -/
def writes (S : ObjectStore σ) (calls : List ObjectCall) : List ObjectWrite :=
  S.writesFrom S.empty calls

/-- What is said about an object fits what is got: it is held exactly when octets are got, and
where nothing can be said nothing is got, for the same reason. -/
def Agrees (S : ObjectStore σ) (s : σ) (key : String) : Prop :=
  S.holds s key = .ok (S.get s key).toOption.isSome ∨
    ∃ e, S.holds s key = .error e ∧ S.get s key = .error e

/-- The contract of an object store for runs with certain keys, some of which count as the
same. A failure to get an object may be reported in different ways. -/
structure KeepsContract (S : ObjectStore σ) (keys : String → Prop)
    (same : String → String → Bool) : Prop where
  stored : ∀ calls : List ObjectCall, (∀ c ∈ calls, keys c.key) → ∀ key, keys key →
    (S.get (S.run calls) key).toOption = lastWritten (same key) (S.writes calls)
  agrees : ∀ calls : List ObjectCall, (∀ c ∈ calls, keys c.key) → ∀ key, keys key →
    S.Agrees (S.run calls) key
  framed : ∀ (calls : List ObjectCall) (call : ObjectCall), (∀ c ∈ calls ++ [call], keys c.key) →
    ∀ key, keys key → same key call.key = false →
      (S.get (S.run (calls ++ [call])) key).toOption = (S.get (S.run calls) key).toOption

/-! ## Runs -/

theorem writesFrom_append (S : ObjectStore σ) (s : σ) (calls : List ObjectCall)
    (call : ObjectCall) :
    S.writesFrom s (calls ++ [call]) =
      S.writesFrom s calls ++ (S.write? (calls.foldl S.step s) call).toList := by
  induction calls generalizing s with
  | nil => exact List.append_nil _
  | cons c calls ih =>
    rw [List.cons_append, writesFrom, ih, writesFrom, List.append_assoc, List.foldl_cons]

theorem key_of_write? {S : ObjectStore σ} {s : σ} {call : ObjectCall} {w : ObjectWrite}
    (h : S.write? s call = some w) : w.key = call.key := by
  cases call with
  | put key data =>
    obtain ⟨-, -, rfl⟩ := Option.map_eq_some_iff.mp h
    rfl
  | delete key =>
    obtain ⟨-, -, rfl⟩ := Option.map_eq_some_iff.mp h
    rfl
  | get key => cases h
  | holds key => cases h

/-- What has to be shown of the single calls for a store to keep the contract, under an
invariant of its states. -/
structure Lawful (S : ObjectStore σ) (keys : String → Prop) (same : String → String → Bool)
    (Inv : σ → Prop) : Prop where
  empty : Inv S.empty
  step : ∀ s call, Inv s → Inv (S.step s call)
  get_empty : ∀ key, (S.get S.empty key).toOption = none
  get_step : ∀ s (call : ObjectCall) key, Inv s → keys call.key → keys key →
    (S.get (S.step s call) key).toOption =
      overwrite (same key) (S.get s key).toOption (S.write? s call)
  agrees : ∀ s key, Inv s → S.Agrees s key

section Lawful

variable {S : ObjectStore σ} {keys : String → Prop} {same : String → String → Bool}
  {Inv : σ → Prop} (h : S.Lawful keys same Inv)
include h

theorem Lawful.run (calls : List ObjectCall) : Inv (S.run calls) := by
  induction calls using List.reverseRecOn with
  | nil => exact h.empty
  | append_singleton calls call ih =>
    rw [ObjectStore.run, List.foldl_append]
    exact h.step _ call ih

theorem Lawful.stored (calls : List ObjectCall) (hcalls : ∀ c ∈ calls, keys c.key) {key : String}
    (hkey : keys key) :
    (S.get (S.run calls) key).toOption = lastWritten (same key) (S.writes calls) := by
  induction calls using List.reverseRecOn with
  | nil => exact h.get_empty key
  | append_singleton calls call ih =>
    have hcall := hcalls call (List.mem_append_right _ (List.mem_singleton_self call))
    have hstep := h.get_step _ call key (h.run calls) hcall hkey
    rw [ih fun c hc => hcalls c (List.mem_append_left _ hc)] at hstep
    rw [writes, writesFrom_append, lastWritten_append, ObjectStore.run, List.foldl_append]
    exact hstep

/-- The laws of single calls make the contract. -/
theorem Lawful.keepsContract : S.KeepsContract keys same where
  stored calls hcalls _ hkey := h.stored calls hcalls hkey
  agrees calls _ key _ := h.agrees _ key (h.run calls)
  framed calls call hcalls key hkey hother := by
    have hcall := hcalls call (List.mem_append_right _ (List.mem_singleton_self call))
    rw [ObjectStore.run, List.foldl_append]
    refine (h.get_step _ call key (h.run calls) hcall hkey).trans ?_
    cases hw : S.write? (S.run calls) call with
    | none => rfl
    | some w =>
      rw [← key_of_write? hw] at hother
      exact if_neg (hother ▸ Bool.false_ne_true)

end Lawful

end ObjectStore

/-! ## Objects in memory -/

namespace Objects

/-- The state that a call leaves, the old one if it failed. -/
def orKeep (o : Objects) : Except Failure Objects → Except Failure Unit × Objects
  | .ok o' => (.ok (), o')
  | .error e => (.error e, o)

/-- The store that keeps its objects in memory. -/
def store : ObjectStore Objects where
  empty := {}
  put o key data := o.orKeep (o.put key data)
  get := get
  holds o key := .ok (o.holds key)
  delete o key := o.orKeep (o.delete key)

/-- In memory an object is not got only if there is none. -/
theorem eq_notFound_of_get {o : Objects} {key : String} {e : Failure}
    (h : o.get key = .error e) : e = .notFound ("object " ++ key) := by
  rw [get] at h
  split at h
  · cases h
  · cases h
    rfl

/-- What a call that leaves the old state on failure means for the objects. -/
theorem toOption_get_orKeep {o : Objects} {r : Except Failure Objects} {key : String}
    (w : ObjectWrite)
    (h : ∀ o', r = .ok o' → o'.get? key = if key = w.key then w.content else o.get? key) :
    ((o.orKeep r).2.get key).toOption =
      overwrite (key == ·) (o.get key).toOption ((o.orKeep r).1.toOption.map fun _ => w) := by
  cases r with
  | error e => rfl
  | ok o' =>
    change (o'.get key).toOption =
      if (key == w.key) = true then w.content else (o.get key).toOption
    rw [toOption_get, toOption_get, h o' rfl]
    exact if_congr beq_iff_eq.symm rfl rfl

theorem lawful (keys : String → Prop) : store.Lawful keys (· == ·) (fun _ => True) where
  empty := trivial
  step _ _ _ := trivial
  get_empty _ := rfl
  get_step _ call _ _ _ _ := by
    cases call with
    | put k data => exact toOption_get_orKeep ⟨k, some data⟩ fun _ h => get?_put h
    | delete k => exact toOption_get_orKeep ⟨k, none⟩ fun _ h => get?_delete h
    | get k => rfl
    | holds k => rfl
  agrees o key _ := by
    refine .inl (congrArg Except.ok ?_)
    rw [holds, ← toOption_get]
    rfl

end Objects

end ChangeImpact
