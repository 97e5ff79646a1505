import ChangeImpact.Workflow.Aging
import Mathlib.Algebra.Order.Ring.Int
import Mathlib.Data.Nat.Cast.Order.Ring

/-!
# The ends of the calendar

A day lies in a year or a later one exactly when it does not lie before the New Year's Day of
that year. So the calendar is an interval of time: it starts with its first year and is over
with its last.
-/

namespace ChangeImpact.Instant

/-- The days from the start of March of the year 0 to that of another year. -/
def daysToMarch (year : Int) : Int :=
  365 * year + year / 4 - year / 100 + year / 400

theorem daysToMarch_le {a b : Int} (h : a ≤ b) : daysToMarch a ≤ daysToMarch b := by
  unfold daysToMarch
  omega

/-- From one March to the next it takes a year at least. -/
theorem daysToMarch_add_le {a b : Int} (h : a < b) : daysToMarch a + 365 ≤ daysToMarch b := by
  unfold daysToMarch
  omega

theorem daysOfDate_newYear (year : Int) :
    daysOfDate year 1 1 = daysToMarch (year - 1) + 306 - 719468 := by
  have hmarch : daysOfDate year 1 1 =
      (year - 1).fdiv 400 * 146097 + ((year - 1 - (year - 1).fdiv 400 * 400) * 365 +
        (year - 1 - (year - 1).fdiv 400 * 400).fdiv 4 -
        (year - 1 - (year - 1).fdiv 400 * 400).fdiv 100 + 306) - 719468 := rfl
  simp only [hmarch, daysToMarch, Int.fdiv_eq_ediv_of_nonneg, Nat.ofNat_nonneg]
  omega

/-- The years, from March to February, that are over on a day of an era of 400 years. -/
def yearsOver (dayOfEra : Int) : Int :=
  (dayOfEra - dayOfEra / 1460 + dayOfEra / 36524 - dayOfEra / 146096) / 365

/-- The years that are over on a day of four years of which the last has a leap day. The day is
that many fours of years away from the start of the century of that number. -/
private theorem exists_year_of_four {century fours day : Int} (hc : 0 ≤ century ∧ century < 4)
    (hf : 0 ≤ fours ∧ fours < 25) (hd : 0 ≤ day ∧ day < 1461) :
    ∃ year, (1461 * fours + day - (24 * century + 1461 * fours + day) / 1460) / 365 =
      4 * fours + year ∧ 0 ≤ year ∧ year < 4 ∧ 365 * year ≤ day ∧
        (day < 365 * (year + 1) ∨ year = 3) := by
  have hsplit : (24 * century + 1461 * fours + day) / 1460 =
      fours + (24 * century + fours + day) / 1460 := by omega
  have hleap : (24 * century + fours + day) / 1460 = 0 ∨
      (24 * century + fours + day) / 1460 = 1 := by omega
  refine ⟨(day - (24 * century + fours + day) / 1460) / 365, by omega, ?_⟩
  rcases hleap with hleap | hleap <;> rw [hleap] <;> omega

/-- An era consists of centuries, a century of fours of years and four years of years. Only the
last day of the last year of four, and of the last century, makes 366. -/
private theorem exists_parts {dayOfEra : Int} (h0 : 0 ≤ dayOfEra) (h1 : dayOfEra < 146097) :
    ∃ century fours year dayOfYear, yearsOver dayOfEra = 100 * century + 4 * fours + year ∧
      dayOfEra = 36524 * century + 1461 * fours + 365 * year + dayOfYear ∧
      (0 ≤ fours ∧ fours < 25) ∧ (0 ≤ year ∧ year < 4) ∧ (0 ≤ century ∧ century < 4) ∧
        0 ≤ dayOfYear ∧ dayOfYear ≤ 365 := by
  -- the fourth century has a day more than the others, on which a fifth would start
  rcases eq_or_ne dayOfEra 146096 with rfl | hlast
  · exact ⟨3, 24, 3, 365, by decide⟩
  have hera : dayOfEra / 146096 = 0 := by omega
  obtain ⟨century, hcentury⟩ : ∃ century, dayOfEra / 36524 = century := ⟨_, rfl⟩
  obtain ⟨rest, hrest⟩ : ∃ rest, dayOfEra - 36524 * century = rest := ⟨_, rfl⟩
  have hc : (0 ≤ century ∧ century < 4) ∧ 0 ≤ rest ∧ rest < 36524 := by omega
  obtain ⟨fours, hfours⟩ : ∃ fours, rest / 1461 = fours := ⟨_, rfl⟩
  obtain ⟨day, hday⟩ : ∃ day, rest - 1461 * fours = day := ⟨_, rfl⟩
  have hf : (0 ≤ fours ∧ fours < 25) ∧ 0 ≤ day ∧ day < 1461 := by omega
  have hleap : dayOfEra / 1460 = 25 * century + (24 * century + 1461 * fours + day) / 1460 := by
    omega
  have hyears : yearsOver dayOfEra = 100 * century +
      (1461 * fours + day - (24 * century + 1461 * fours + day) / 1460) / 365 := by
    rw [yearsOver, hcentury, hera, hleap]
    generalize (24 * century + 1461 * fours + day) / 1460 = leaps
    omega
  obtain ⟨year, hyear, hy⟩ := exists_year_of_four hc.1 hf.1 hf.2
  exact ⟨century, fours, year, day - 365 * year, by omega, by omega, by omega⟩

/-- The day of the year that starts in March is one of 366. -/
theorem dayOfYear_bounds {dayOfEra : Int} (h0 : 0 ≤ dayOfEra) (h1 : dayOfEra < 146097) :
    (0 ≤ yearsOver dayOfEra ∧ yearsOver dayOfEra < 400) ∧
      365 * yearsOver dayOfEra + yearsOver dayOfEra / 4 - yearsOver dayOfEra / 100 ≤ dayOfEra ∧
      dayOfEra ≤
        365 * yearsOver dayOfEra + yearsOver dayOfEra / 4 - yearsOver dayOfEra / 100 + 365 := by
  obtain ⟨century, fours, year, dayOfYear, hyears, hday, hf, hy, hc, hd⟩ := exists_parts h0 h1
  have hfours : (100 * century + 4 * fours + year) / 4 = 25 * century + fours := by omega
  have hcentury : (100 * century + 4 * fours + year) / 100 = century := by omega
  rw [hyears, hfours, hcentury]
  omega

/-- A day and the March before it: the year moves on in January, 306 days after that March. -/
theorem exists_march (days : Int) :
    ∃ march dayOfYear : Int, days + 719468 = daysToMarch march + dayOfYear ∧ 0 ≤ dayOfYear ∧
      dayOfYear ≤ 365 ∧ (dateOfDays days).1 = march + if 306 ≤ dayOfYear then 1 else 0 := by
  obtain ⟨era, hera⟩ : ∃ era, (days + 719468) / 146097 = era := ⟨_, rfl⟩
  obtain ⟨dayOfEra, hday⟩ : ∃ dayOfEra, days + 719468 - era * 146097 = dayOfEra := ⟨_, rfl⟩
  have hyears : (dayOfEra - dayOfEra / 1460 + dayOfEra / 36524 - dayOfEra / 146096) / 365 =
      yearsOver dayOfEra := rfl
  have hrange : 0 ≤ dayOfEra ∧ dayOfEra < 146097 := by omega
  have hbounds := dayOfYear_bounds hrange.1 hrange.2
  have hyear : (dateOfDays days).1 = yearsOver dayOfEra + era * 400 +
      if (if (5 * (dayOfEra - (365 * yearsOver dayOfEra + yearsOver dayOfEra / 4 -
            yearsOver dayOfEra / 100)) + 2) / 153 < 10
          then (5 * (dayOfEra - (365 * yearsOver dayOfEra + yearsOver dayOfEra / 4 -
            yearsOver dayOfEra / 100)) + 2) / 153 + 3
          else (5 * (dayOfEra - (365 * yearsOver dayOfEra + yearsOver dayOfEra / 4 -
            yearsOver dayOfEra / 100)) + 2) / 153 - 9) ≤ 2 then 1 else 0 := by
    simp only [dateOfDays, Int.fdiv_eq_ediv_of_nonneg, Nat.ofNat_nonneg, hera, hday, hyears]
  rw [hyear]
  generalize yearsOver dayOfEra = years at hbounds ⊢
  have hmarch : daysToMarch (years + era * 400) =
      era * 146097 + (365 * years + years / 4 - years / 100) := by
    have h4 : (years + era * 400) / 4 = years / 4 + era * 100 := by omega
    have h100 : (years + era * 400) / 100 = years / 100 + era * 4 := by omega
    have h400 : (years + era * 400) / 400 = era := by omega
    rw [daysToMarch, h4, h100, h400]
    omega
  refine ⟨years + era * 400, dayOfEra - (365 * years + years / 4 - years / 100), ?_, by omega,
    by omega, ?_⟩
  · rw [hmarch]
    omega
  · congr 1
    split <;> split <;> split <;> omega

/-- A day lies in a year or a later one from the New Year's Day of that year on. -/
theorem le_year_iff (year days : Int) :
    year ≤ (dateOfDays days).1 ↔ daysOfDate year 1 1 ≤ days := by
  obtain ⟨march, dayOfYear, hdays, h0, h1, hyear⟩ := exists_march days
  rw [hyear, daysOfDate_newYear]
  constructor
  · intro h
    split at h
    · have := daysToMarch_le (show year - 1 ≤ march by omega)
      omega
    · have := daysToMarch_add_le (show year - 1 < march by omega)
      omega
  · intro h
    by_contra hlt
    split at hlt
    · have := daysToMarch_add_le (show march < year - 1 by omega)
      omega
    · have := daysToMarch_le (show march ≤ year - 1 by omega)
      omega

/-- When the calendar starts. -/
def calendarStart : Instant := ⟨daysOfDate calendarYears.1 1 1 * day * second⟩

/-- When the calendar is over. -/
def calendarEnd : Instant := ⟨daysOfDate (calendarYears.2 + 1) 1 1 * day * second⟩

/-- A point in time lies in the calendar from its start until it is over. -/
theorem inCalendar_iff (t : Instant) : t.inCalendar = true ↔ calendarStart ≤ t ∧ t < calendarEnd := by
  have hday : (t.nanos.fdiv second).fdiv day = t.nanos / second / day := by
    rw [Int.fdiv_eq_ediv_of_nonneg _ (by decide), Int.fdiv_eq_ediv_of_nonneg _ (by decide)]
  have hs : (0 : Int) < second := by decide
  have hd : (0 : Int) < day := by decide
  have hlast (year : Int) : year ≤ calendarYears.2 ↔ ¬ calendarYears.2 + 1 ≤ year := by omega
  rw [inCalendar, hday]
  simp only [Bool.and_eq_true, decide_eq_true_eq]
  rw [hlast, le_year_iff, le_year_iff, not_le, Int.le_ediv_iff_mul_le hd,
    Int.le_ediv_iff_mul_le hs, Int.ediv_lt_iff_lt_mul hd, Int.ediv_lt_iff_lt_mul hs]
  rfl

end ChangeImpact.Instant
