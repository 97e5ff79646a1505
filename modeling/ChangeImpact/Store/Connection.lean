import ChangeImpact.Failure

/-!
# Connections

Statements reach a database through a connection. A statement that is refused
changes nothing. Outside of a transaction a statement is stored at once; inside of
one it acts on a copy. Committing puts the copy in the place of what it was made
from, and whoever closes the connection before that forgets it. Transactions
inside of each other are savepoints.
-/

namespace ChangeImpact

/-- A connection to a database. -/
structure Connection (σ : Type) where
  /-- What is stored. -/
  stored : σ
  /-- The copies that open transactions act on, the innermost first. -/
  copies : List σ := []

namespace Connection

variable {σ : Type}

/-- What statements see. -/
def seen (c : Connection σ) : σ := c.copies.headD c.stored

/-- Put something in the place of what statements see. -/
def put (s : σ) (c : Connection σ) : Connection σ :=
  match c.copies with
  | [] => { c with stored := s }
  | _ :: outer => { c with copies := s :: outer }

/-- Make a copy to act on. -/
def opened (c : Connection σ) : Connection σ :=
  { c with copies := c.seen :: c.copies }

/-- Forget the innermost copy. -/
def dropped (c : Connection σ) : Connection σ :=
  { c with copies := c.copies.tail }

end Connection

/-- What is done through a connection; it may break off, with the connection as it is
then. -/
abbrev Script (σ α : Type) := ExceptT Failure (StateM (Connection σ)) α

namespace Script

variable {σ α : Type}

/-- What a script makes of a connection. -/
def exec (a : Script σ α) (c : Connection σ) : Except Failure α × Connection σ :=
  (ExceptT.run a).run c

/-- What a script leaves in the database, on a connection of its own that is closed at
the end. -/
def run (a : Script σ α) (s : σ) : Except Failure α × σ :=
  let (result, c) := a.exec { stored := s }
  (result, c.stored)

/-- Carry out one statement. -/
def statement (f : σ → Except Failure (α × σ)) : Script σ α := do
  let c ← get
  match f c.seen with
  | .ok (a, s) => set (c.put s); pure a
  | .error e => throw e

/-- Carry out a statement without an answer. -/
def write (f : σ → Except Failure σ) : Script σ Unit :=
  statement fun s => do
    let s ← f s
    pure ((), s)

/-- Carry out a statement that is never refused. -/
def change (f : σ → α × σ) : Script σ α :=
  statement fun s => .ok (f s)

/-- Read what is there. -/
def ask (q : σ → Except Failure α) : Script σ α :=
  statement fun s => do
    let a ← q s
    pure (a, s)

/-- Open a transaction. -/
def start : Script σ Unit := modify Connection.opened

/-- End the innermost transaction and keep what was done in it. -/
def commit : Script σ Unit := do
  let c ← get
  match c.copies with
  | [] => throw .unreadable
  | s :: _ => set (c.dropped.put s)

/-- Take back what was done in the innermost transaction, which stays open. -/
def undo : Script σ Unit := do
  let c ← get
  match c.copies with
  | [] => throw .unreadable
  | _ :: _ => set c.dropped.opened

/-- Do something in a transaction. -/
def transaction (a : Script σ α) : Script σ α := do
  start
  let x ← a
  commit
  pure x

/-- Do something if it can be done. -/
def attempt (a : Script σ Unit) : Script σ Unit :=
  tryCatch a fun _ => pure ()

end Script

end ChangeImpact
