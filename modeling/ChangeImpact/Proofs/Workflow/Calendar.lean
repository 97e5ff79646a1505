import ChangeImpact.Proofs.Instant
import ChangeImpact.Proofs.Operation
import ChangeImpact.Proofs.Settings

/-!
# Sweeps and the calendar

A sweep asks for a time that lies the configured number of hours back, and any positive number
of 64 bits can be configured. It breaks off exactly when that time lies before the start of the
calendar; nothing else that it does has to do with the calendar.
-/

namespace ChangeImpact

open Operation

namespace Operation

variable {α β : Type} {e : Failure}

/-- The operation never fails for a given reason. -/
def NeverFails (e : Failure) (a : Operation α) : Prop :=
  ∀ w, (exec a w).1 ≠ .error e

namespace NeverFails

theorem pure (x : α) : NeverFails e (Pure.pure x : Operation α) := fun _ => nofun

theorem bind {a : Operation α} {f : α → Operation β} (ha : NeverFails e a)
    (hf : ∀ x, NeverFails e (f x)) : NeverFails e (a >>= f) := by
  intro w
  have hw := ha w
  rw [exec_bind]
  cases hx : exec a w with
  | mk result w' =>
    rw [hx] at hw
    cases result with
    | error d => exact fun heq => hw (congrArg _ (Except.error.inj heq))
    | ok x => exact hf x w'

theorem composes (e : Failure) : Composes fun _ a => NeverFails e a := ⟨pure, bind⟩

theorem now : NeverFails e now := fun _ => nofun

theorem publish (user : String) (notice : Notice) (subject : String) :
    NeverFails e (publish user notice subject) := fun _ => nofun

theorem read {q : Store → Except Failure α} (hq : ∀ s, q s ≠ .error e) :
    NeverFails e (read q) := by
  intro w
  rw [exec_read]
  cases h : q w.store with
  | error d => exact fun heq => hq w.store (h.trans heq)
  | ok x => exact nofun

theorem need {q : Store → Except Failure (Option α)} {what : String} (hq : ∀ s, q s ≠ .error e)
    (hwhat : e ≠ .notFound what) : NeverFails e (need q what) := by
  refine bind (read hq) fun found => ?_
  cases found with
  | none => exact fun _ heq => hwhat (Except.error.inj heq).symm
  | some x => exact pure x

theorem write {g : Store → Except Failure Store} (hg : ∀ s, g s ≠ .error e) :
    NeverFails e (write g) := by
  intro w
  rw [exec_write]
  cases h : g w.store with
  | error d => exact fun heq => hg w.store (h.trans (congrArg _ (Except.error.inj heq)))
  | ok s => exact nofun

theorem writeWith {g : Store → Except Failure (α × Store)} (hg : ∀ s, g s ≠ .error e) :
    NeverFails e (writeWith g) := by
  intro w
  rw [exec_writeWith]
  cases h : g w.store with
  | error d => exact fun heq => hg w.store (h.trans (congrArg _ (Except.error.inj heq)))
  | ok s => exact nofun

end NeverFails

end Operation

/-- Rows that cannot be read have nothing to do with the calendar. -/
theorem Store.readRows_ne_calendar {α : Type} (s : Store) (columns : List Column)
    (id : α → String) (rows : List α) : s.readRows columns id rows ≠ .error .calendar := by
  rw [Store.readRows]
  split <;> exact nofun

theorem Store.readFirst_ne_calendar {α : Type} (s : Store) (columns : List Column)
    (id : α → String) (row : Option α) : s.readFirst columns id row ≠ .error .calendar := by
  cases row with
  | none => exact nofun
  | some r =>
    rw [Store.readFirst]
    split <;> exact nofun

/-- Looking at a request again stays clear of the calendar. -/
theorem reEvaluate_never (id : String) : NeverFails .calendar (reEvaluate id) := by
  refine .bind (.need (fun s => s.readFirst_ne_calendar _ _ _) nofun) fun request => ?_
  split
  · exact .pure _
  refine .bind (.read fun s => s.readRows_ne_calendar _ _ _) fun impacts => ?_
  split
  · exact .pure _
  refine .bind .now fun time => .bind (.write fun s => ?_) fun _ =>
    .bind (.publish _ _ _) fun _ => .pure _
  rw [Store.setStatus]
  cases s.hasRequest id <;> exact nofun

/-- Once the cut-off is known, a sweep stays clear of the calendar. -/
theorem sweep_ne_calendar_iff (w : World) (time : Instant) (threshold : Int) :
    (exec (sweep time threshold) w).1 ≠ .error .calendar ↔
      (time.before? threshold).isSome = true := by
  rw [sweep]
  cases time.before? threshold with
  | none => exact ⟨fun h => absurd rfl h, nofun⟩
  | some cutoff =>
    refine iff_of_true ?_ rfl
    refine NeverFails.bind (.read fun s => s.readRows_ne_calendar _ _ _) (fun found => ?_) w
    refine .bind ((NeverFails.composes _).filterM fun x => .writeWith fun s => nofun) fun _ => ?_
    refine .bind ((NeverFails.composes _).forM fun id => ?_) fun _ => .pure _
    exact .bind (reEvaluate_never id) fun _ => .pure _

namespace Instant

/-- Nanoseconds in an hour. -/
def hour : Int := 3600 * second

/-- There is a time so many hours back as long as the calendar had started. -/
theorem isSome_before?_iff {t : Instant} (ht : t.inCalendar = true) {hours : Int}
    (hpos : 0 < hours) :
    (t.before? (hours * 3600)).isSome = true ↔
      calendarStart.nanos + hours * hour ≤ t.nanos := by
  obtain ⟨-, hend⟩ := (inCalendar_iff t).mp ht
  have hend : t.nanos < calendarEnd.nanos := hend
  have hstart : calendarStart.nanos = -8334601228800000000000 := by decide
  have hstop : calendarEnd.nanos = 8210266876800000000000 := by decide
  have hcutoff : (⟨t.nanos - hours * 3600 * second⟩ : Instant).inCalendar = true ↔
      calendarStart.nanos ≤ t.nanos - hours * 3600 * second ∧
        t.nanos - hours * 3600 * second < calendarEnd.nanos := inCalendar_iff _
  have hspan : longestSpan = 9223372036854775807 := by decide
  have hhour : hour = 3600 * second := rfl
  have hsecond : second = 1000000000 := rfl
  rw [before?, Option.isSome_ite, hcutoff, hstart, hspan, hhour]
  rw [hstop] at hend
  rw [hstop, hsecond]
  omega

end Instant

/-- At a time within the calendar, a sweep with the settings that some variables give completes
exactly when the hours that they set do not reach back behind the start of the calendar,
whatever is stored. -/
theorem autoconfirm_completes_iff (lookup : String → Option String) {w : World}
    (hclock : w.clock.inCalendar = true) :
    (exec (autoconfirm (Settings.load lookup)) w).1 ≠ .error .calendar ↔
      Instant.calendarStart.nanos +
        (Settings.load lookup).autoconfirmAfterHours * Instant.hour ≤ w.clock.nanos := by
  rw [← Instant.isSome_before?_iff hclock (Settings.autoconfirmAfterHours_pos lookup),
    ← sweep_ne_calendar_iff { w with clock := ⟨w.clock.nanos + tick⟩ }]
  rfl

/-- Variables that set nothing but the hours after which impacts age. -/
def sampleHours (hours : String) (name : String) : Option String :=
  if name = "RIPPLE_AUTOCONFIRM_AFTER_HOURS" then some hours else none

/-- At the start of 1970 a sweep may reach back 2315167008 hours. -/
theorem sample_autoconfirm_completes :
    (⟨0⟩ : Instant).inCalendar = true ∧
      Instant.calendarStart.nanos +
        (Settings.load (sampleHours "2315167008")).autoconfirmAfterHours * Instant.hour ≤ 0 ∧
      (exec (autoconfirm (Settings.load (sampleHours "2315167008"))) { clock := ⟨0⟩ }).1 ≠
        .error .calendar :=
  have hreach : Instant.calendarStart.nanos +
      (Settings.load (sampleHours "2315167008")).autoconfirmAfterHours * Instant.hour ≤ 0 := by
    decide +kernel
  ⟨by decide, hreach, (autoconfirm_completes_iff _ (by decide)).mpr hreach⟩

/-- The longest time that can be configured makes every sweep break off. -/
theorem sample_autoconfirm_breaks_off :
    (Settings.load (sampleHours "9223372036854775807")).autoconfirmAfterHours =
        9223372036854775807 ∧
      (exec (autoconfirm (Settings.load (sampleHours "9223372036854775807")))
        { clock := ⟨1704067200000000000⟩ }).1 = .error .calendar := by
  constructor <;> decide +kernel

end ChangeImpact
