import ChangeImpact.Workflow.Requests

/-!
# Aging of impacts

An impact that stays open for too long is acknowledged by itself. A sweep does
so for every open impact whose request is old enough and then looks at each of
these requests again.
-/

namespace ChangeImpact

open Operation

/-- What a sweep did. -/
structure SweepReport where
  /-- The number of impacts that were acknowledged. -/
  confirmed : Nat := 0
  /-- The requests of those impacts, ascending. -/
  reEvaluated : List String := []
deriving DecidableEq, Repr

/-- The longest span of time, in milliseconds. -/
def longestSpan : Int := Int.pow 2 63 - 1

/-- The first and the last year of the calendar. -/
def calendarYears : Int × Int := (-262143, 262142)

/-- Whether a point in time lies in the calendar. -/
def Instant.inCalendar (t : Instant) : Bool :=
  let year := (dateOfDays ((t.nanos.fdiv second).fdiv day)).1
  calendarYears.1 ≤ year && year ≤ calendarYears.2

/-- The time so many seconds before another, unless there is no such time. -/
def Instant.before? (t : Instant) (seconds : Int) : Option Instant :=
  let cutoff : Instant := ⟨t.nanos - seconds * second⟩
  if seconds.natAbs * 1000 ≤ longestSpan ∧ cutoff.inCalendar then some cutoff else none

/-- Acknowledge an impact for its age. Answers whether it was open. -/
def confirm (now : Instant) (i : Impact) : Operation Bool :=
  writeWith fun s => .ok (s.acknowledge i.id now true)

/-- Acknowledge every open impact whose request was made at `cutoff` or before, and move on the
requests that this leaves without open impacts. -/
def sweepUntil (now cutoff : Instant) : Operation SweepReport := do
  let aged := (← read (·.openImpacts)).filter fun (_, createdAt) => decide (createdAt ≤ cutoff)
  let confirmed ← aged.filterM fun (i, _) => confirm now i
  let touched := Ordered.ofList (confirmed.map (·.1.change))
  touched.forM fun id => do let _ ← reEvaluate id
  pure { confirmed := confirmed.length, reEvaluated := touched }

/-- Sweep the impacts of requests that were made at least `threshold` seconds before `now`. -/
def sweep (now : Instant) (threshold : Int) : Operation SweepReport :=
  match now.before? threshold with
  | none => fail .calendar
  | some cutoff => sweepUntil now cutoff

/-- A sweep at the present time with the threshold of the settings. -/
def autoconfirm (settings : Settings) : Operation SweepReport := do
  let time ← now
  sweep time (settings.autoconfirmAfterHours * 3600)

/-- A sweep in the background. Its failure concerns nobody. -/
def autoconfirmInBackground (settings : Settings) : Operation Unit := do
  try
    let _ ← autoconfirm settings
  catch _ => pure ()

end ChangeImpact
