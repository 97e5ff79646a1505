import ChangeImpact.Extraction.Project
import ChangeImpact.Findings
import ChangeImpact.Objects.Memory
import ChangeImpact.Store.Decisions
import ChangeImpact.Store.Graph

/-!
# The world of the workflow

Actions read and write the store, the objects and the events that users are sent,
and take the time from a clock and identifiers from a supply that does not run
out. A failure ends an action; what it wrote before stays.
-/

namespace ChangeImpact

/-- What a user is told. -/
inductive Notice where
  | filesReady
  | parserComplete
  | assistantComplete
  | assistantFailed
  | pendingReview
  | approved
  | rejected
deriving DecidableEq, Repr, Inhabited

namespace Notice

/-- The name of a notice. -/
def name : Notice → String
  | filesReady => "project:files_ready"
  | parserComplete => "impact:parser_complete"
  | assistantComplete => "impact:llm_complete"
  | assistantFailed => "impact:llm_failed"
  | pendingReview => "change:pending_review"
  | approved => "change:approved"
  | rejected => "change:rejected"

/-- What the identifier that goes with a notice stands for. -/
def subjectKey : Notice → String
  | filesReady => "project_id"
  | _ => "change_request_id"

end Notice

/-- A notice to a user about a project or a change request. -/
structure Event where
  /-- Who is told. -/
  user : String
  /-- What is told. -/
  notice : Notice
  /-- The project or the change request. -/
  subject : String
deriving DecidableEq, Repr

/-- What goes along with an event. -/
def Event.payload (e : Event) : Json :=
  .object [(e.notice.subjectKey, .string e.subject)]

/-- Everything that actions can change. -/
structure World where
  /-- The tables. -/
  store : Store := {}
  /-- The content of files. -/
  objects : Objects := {}
  /-- The events in the order in which they were published. -/
  events : List Event := []
  /-- The time that is read next. -/
  clock : Instant
  /-- The number of identifiers handed out. -/
  issued : Nat := 0

/-- The users who were sent a notice, in order. -/
def World.recipients (w : World) (name : String) : List String :=
  (w.events.filter (·.notice.name = name)).map (·.user)

/-- What actions depend on and do not change. -/
structure Setup where
  /-- The syntax trees of sources. -/
  grammar : Grammar
  /-- The settings. -/
  settings : Settings := {}
  /-- The language model, if there is one. -/
  assistant : Option Assistant := none

/-- A computation on the world that may fail and then keeps what it wrote. -/
abbrev Operation (α : Type) := ExceptT Failure (StateM World) α

namespace Operation

/-- What an action makes of a world. -/
def exec {α : Type} (a : Operation α) (w : World) : Except Failure α × World :=
  (ExceptT.run a).run w

/-- Fail. -/
def fail {α : Type} (e : Failure) : Operation α := throw e

/-- Ask the store. -/
def query {α : Type} (q : Store → α) : Operation α := do
  pure (q (← get).store)

/-- Read rows of the store. -/
def read {α : Type} (q : Store → Except Failure α) : Operation α := do
  match q (← get).store with
  | .ok a => pure a
  | .error e => fail e

/-- Read a row that has to be there. -/
def need {α : Type} (q : Store → Except Failure (Option α)) (what : String) : Operation α := do
  match ← read q with
  | some a => pure a
  | none => fail (.notFound what)

/-- Change the store in a way that can be refused. A refusal changes nothing. -/
def write (f : Store → Except Failure Store) : Operation Unit := do
  match f (← get).store with
  | .ok store => modify fun w => { w with store }
  | .error e => fail e

/-- Change the store in a way that has an answer and can be refused. -/
def writeWith {α : Type} (f : Store → Except Failure (α × Store)) : Operation α := do
  match f (← get).store with
  | .ok (a, store) => modify (fun w => { w with store }); pure a
  | .error e => fail e

/-- Change the objects in a way that can be refused. -/
def store (f : Objects → Except Failure Objects) : Operation Unit := do
  match f (← get).objects with
  | .ok objects => modify fun w => { w with objects }
  | .error e => fail e

/-- The object under a key, or why there is none. -/
def object (key : String) : Operation (Except Failure Bytes) := do
  pure ((← get).objects.get key)

/-- The time between two readings of the clock, in nanoseconds. -/
def tick : Int := 1000003

/-- The time. The clock moves on at every reading. -/
def now : Operation Instant := do
  let w ← get
  set { w with clock := ⟨w.clock.nanos + tick⟩ }
  pure w.clock

/-- How every identifier that is handed out starts. -/
def idStart : String := "00000000-0000-4000-8000-"

/-- The identifier of a given number. -/
def idOf (n : Nat) : String :=
  let digits := Nat.toDigits 16 n
  idStart ++ String.ofList (List.replicate (12 - digits.length) '0' ++ digits)

/-- An identifier that was not handed out before. -/
def freshId : Operation String := do
  let w ← get
  set { w with issued := w.issued + 1 }
  pure (idOf w.issued)

/-- Tell a user. -/
def publish (user : String) (notice : Notice) (subject : String) : Operation Unit :=
  modify fun w => { w with events := w.events ++ [⟨user, notice, subject⟩] }

end Operation

end ChangeImpact
