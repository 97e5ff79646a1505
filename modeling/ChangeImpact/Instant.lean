/-!
# Points in time

An instant is a count of nanoseconds since the start of 1970 in universal time,
so instants compare and add as integers. They are read and written in the form
`2024-01-31T12:30:00.5+02:00`.
-/

namespace ChangeImpact

/-- A point in time. -/
structure Instant where
  /-- Nanoseconds since the start of 1970, universal time. -/
  nanos : Int
deriving DecidableEq, Repr, Inhabited

namespace Instant

instance : LE Instant := ⟨fun a b => a.nanos ≤ b.nanos⟩
instance : LT Instant := ⟨fun a b => a.nanos < b.nanos⟩
instance (a b : Instant) : Decidable (a ≤ b) := inferInstanceAs (Decidable (a.nanos ≤ b.nanos))
instance (a b : Instant) : Decidable (a < b) := inferInstanceAs (Decidable (a.nanos < b.nanos))

/-- Nanoseconds in a second. -/
def second : Int := 1000000000

/-- Seconds in a day. -/
def day : Int := 86400

/-- The number of days from the start of 1970 to a date of the Gregorian calendar.
Years are counted from March, so that the leap day is the last of its year. -/
def daysOfDate (year month dayOfMonth : Int) : Int :=
  let y := if month ≤ 2 then year - 1 else year
  let era := y.fdiv 400
  let yearOfEra := y - era * 400
  let monthFromMarch := if month > 2 then month - 3 else month + 9
  let dayOfYear := (153 * monthFromMarch + 2).fdiv 5 + dayOfMonth - 1
  let dayOfEra := yearOfEra * 365 + yearOfEra.fdiv 4 - yearOfEra.fdiv 100 + dayOfYear
  era * 146097 + dayOfEra - 719468

/-- The year, month and day of a count of days from the start of 1970. -/
def dateOfDays (days : Int) : Int × Int × Int :=
  let z := days + 719468
  let era := z.fdiv 146097
  let dayOfEra := z - era * 146097
  let yearOfEra :=
    (dayOfEra - dayOfEra.fdiv 1460 + dayOfEra.fdiv 36524 - dayOfEra.fdiv 146096).fdiv 365
  let dayOfYear := dayOfEra - (365 * yearOfEra + yearOfEra.fdiv 4 - yearOfEra.fdiv 100)
  let monthFromMarch := (5 * dayOfYear + 2).fdiv 153
  let dayOfMonth := dayOfYear - (153 * monthFromMarch + 2).fdiv 5 + 1
  let month := if monthFromMarch < 10 then monthFromMarch + 3 else monthFromMarch - 9
  let year := yearOfEra + era * 400 + (if month ≤ 2 then 1 else 0)
  (year, month, dayOfMonth)

/-- The number that `n` leading digits spell. -/
def digits : Nat → List Char → Option (Int × List Char)
  | 0, cs => some (0, cs)
  | n + 1, cs => do
    let (value, rest) ← digits n cs
    match rest with
    | c :: more =>
      if c.isDigit then some (value * 10 + ((c.toNat - '0'.toNat : Nat) : Int), more) else none
    | [] => none

/-- The text after an expected character. -/
def expect (p : Char → Bool) : List Char → Option (List Char)
  | c :: cs => if p c then some cs else none
  | [] => none

/-- The nanoseconds of a fraction; digits after the ninth are dropped. -/
def fraction (cs : List Char) : Option (Int × List Char) :=
  match cs with
  | '.' :: rest =>
    let ds := rest.takeWhile Char.isDigit
    if ds.isEmpty then none
    else
      let padded := (ds ++ List.replicate 9 '0').take 9
      (digits 9 padded).map fun (n, _) => (n, rest.dropWhile Char.isDigit)
  | _ => some (0, cs)

/-- The offset from universal time in seconds. -/
def offset (cs : List Char) : Option (Int × List Char) :=
  match cs with
  | 'Z' :: r => some (0, r)
  | 'z' :: r => some (0, r)
  | c :: r =>
    if c = '+' ∨ c = '-' then do
      let (hours, r) ← digits 2 r
      let r ← expect (· = ':') r
      let (minutes, r) ← digits 2 r
      if minutes < 60 then
        let seconds := hours * 3600 + minutes * 60
        some (if c = '+' then seconds else -seconds, r)
      else none
    else none
  | [] => none

/-- The instant that an RFC 3339 date and time names. -/
def parse (text : String) : Option Instant := do
  let (year, cs) ← digits 4 text.toList
  let cs ← expect (· = '-') cs
  let (month, cs) ← digits 2 cs
  let cs ← expect (· = '-') cs
  let (dayOfMonth, cs) ← digits 2 cs
  let cs ← expect (fun c => c = 'T' || c = 't' || c = ' ') cs
  let (hour, cs) ← digits 2 cs
  let cs ← expect (· = ':') cs
  let (minute, cs) ← digits 2 cs
  let cs ← expect (· = ':') cs
  let (sec, cs) ← digits 2 cs
  let (nano, cs) ← fraction cs
  let (shift, cs) ← offset cs
  let days := daysOfDate year month dayOfMonth
  if cs.isEmpty ∧ dateOfDays days = (year, month, dayOfMonth) ∧ hour < 24 ∧ minute < 60 ∧
      sec < 60 then
    some ⟨(days * day + hour * 3600 + minute * 60 + sec - shift) * second + nano⟩
  else none

/-- A number with leading zeros up to a width. -/
def padded (width : Nat) (n : Int) : String :=
  let ds := Nat.toDigits 10 n.toNat
  String.ofList (List.replicate (width - ds.length) '0' ++ ds)

/-- The fraction of a second with 0, 3, 6 or 9 digits, the fewest that are exact. -/
def fractionText (nano : Int) : String :=
  if nano = 0 then ""
  else if nano % 1000000 = 0 then "." ++ padded 3 (nano / 1000000)
  else if nano % 1000 = 0 then "." ++ padded 6 (nano / 1000)
  else "." ++ padded 9 nano

/-- The instant in universal time. -/
def render (t : Instant) : String :=
  let seconds := t.nanos.fdiv second
  let nano := t.nanos - seconds * second
  let days := seconds.fdiv day
  let rest := seconds - days * day
  let (year, month, dayOfMonth) := dateOfDays days
  padded 4 year ++ "-" ++ padded 2 month ++ "-" ++ padded 2 dayOfMonth ++ "T" ++
    padded 2 (rest / 3600) ++ ":" ++ padded 2 (rest % 3600 / 60) ++ ":" ++ padded 2 (rest % 60) ++
    fractionText nano ++ "Z"

end Instant

end ChangeImpact
