import ChangeImpact.Json.Basic

/-!
# Reading JSON numbers

The significand is collected in 64 bits. Digits of the integer part that do not
fit raise the decimal exponent instead, digits of the fraction that do not fit
are dropped. The double is the significand times or over one power of ten, so it
is the nearest one whenever both are exact. A value beyond the greatest double
is refused; one below the least is zero.
-/

namespace ChangeImpact.Json

/-- The least number beyond 64 bits. -/
def wordLimit : Nat := Nat.pow 2 64

/-- The value of a decimal digit. -/
def digit? (c : Char) : Option Nat :=
  if c.isDigit then some (c.toNat - '0'.toNat) else none

/-- A power of ten up to `1e308` as the nearest double. -/
def powerOfTen (n : Nat) : Float :=
  Float.ofScientific 1 false n

/-- `magnitude · 10 ^ exponent` as a double; refused when infinite. An exponent below
`-308` divides by `1e308` first, as often as `fuel` allows. -/
def scaleFloat : Nat → Float → Int → Option Float
  | 0, _, _ => none
  | fuel + 1, magnitude, exponent =>
    if exponent.natAbs ≤ 308 then
      if 0 ≤ exponent then
        let scaled := magnitude * powerOfTen exponent.natAbs
        if scaled.isInf then none else some scaled
      else some (magnitude / powerOfTen exponent.natAbs)
    else if magnitude == 0.0 then some magnitude
    else if 0 ≤ exponent then none
    else scaleFloat fuel (magnitude / powerOfTen 308) (exponent + 308)

/-- The double of a sign, a significand and a decimal exponent. Four divisions by
`1e308` take every significand to zero. -/
def floatOfParts (positive : Bool) (significand : Nat) (exponent : Int) : Option Number :=
  (scaleFloat 8 (Float.ofNat significand) exponent).map fun magnitude =>
    .float (if positive then magnitude else -magnitude)

/-- Collect digits into a significand while it fits 64 bits. Returns the significand,
the count of digits taken and the rest, which starts with the digit that did not
fit or with no digit. -/
def collectDigits : Nat → List Char → Nat × Nat × List Char
  | significand, [] => (significand, 0, [])
  | significand, c :: cs =>
    match digit? c with
    | none => (significand, 0, c :: cs)
    | some d =>
      if significand * 10 + d < wordLimit then
        let (s, count, rest) := collectDigits (significand * 10 + d) cs
        (s, count + 1, rest)
      else (significand, 0, c :: cs)

/-- The digits in front and what follows them. -/
def spanDigits (cs : List Char) : List Char × List Char :=
  (cs.takeWhile Char.isDigit, cs.dropWhile Char.isDigit)

/-- The greatest exponent that is still added up. -/
def exponentLimit : Nat := Nat.pow 2 31 - 1

/-- Exponents stay within 32 bits. -/
def clampExponent (n : Int) : Int :=
  max (-Int.pow 2 31) (min (Int.pow 2 31 - 1) n)

/-- The part after `e`: a sign and at least one digit. An exponent beyond 32 bits is
refused when it is positive and the significand is not zero, else gives zero. -/
def readExponent (positive : Bool) (significand : Nat) (exponent : Int) (cs : List Char) :
    Option (Number × List Char) :=
  let (up, body) : Bool × List Char :=
    match cs with
    | '+' :: r => (true, r)
    | '-' :: r => (false, r)
    | r => (true, r)
  let (digits, rest) := spanDigits body
  if digits.isEmpty then none
  else
    let value := digits.foldl (fun n c => n * 10 + (c.toNat - '0'.toNat)) 0
    if exponentLimit < value then
      if significand ≠ 0 ∧ up then none
      else some (.float (if positive then 0.0 else -0.0), rest)
    else
      let total := clampExponent (if up then exponent + value else exponent - value)
      (floatOfParts positive significand total).map (·, rest)

/-- What may follow the digits of a number: an exponent, or nothing. -/
def readTail (positive : Bool) (significand : Nat) (exponent : Int) (cs : List Char) :
    Option (Number × List Char) :=
  match cs with
  | 'e' :: r => readExponent positive significand exponent r
  | 'E' :: r => readExponent positive significand exponent r
  | r => (floatOfParts positive significand exponent).map (·, r)

/-- The part after the point: at least one digit. -/
def readFraction (positive : Bool) (significand : Nat) (exponent : Int) (cs : List Char) :
    Option (Number × List Char) :=
  match cs with
  | [] => none
  | c :: _ =>
    if c.isDigit then
      let (s, count, rest) := collectDigits significand cs
      readTail positive s (exponent - count) (rest.dropWhile Char.isDigit)
    else none

/-- An integer that was read to its end. A negative one below the 64-bit range and a
negative zero are doubles. -/
def integer (positive : Bool) (significand : Nat) : Number :=
  if positive then .int significand
  else if significand = 0 ∨ Nat.pow 2 63 < significand then .float (-(Float.ofNat significand))
  else .int (-significand)

/-- A number without its sign. No zero may lead another digit. -/
def readMagnitude (positive : Bool) (cs : List Char) : Option (Number × List Char) :=
  match cs with
  | [] => none
  | c :: rest =>
    if c = '0' then
      match rest with
      | '.' :: r => readFraction positive 0 0 r
      | 'e' :: r => readExponent positive 0 0 r
      | 'E' :: r => readExponent positive 0 0 r
      | d :: r => if d.isDigit then none else some (integer positive 0, d :: r)
      | [] => some (integer positive 0, [])
    else if c.isDigit then
      let (s, _, after) := collectDigits 0 cs
      let (excess, tail) := spanDigits after
      match tail with
      | '.' :: r => readFraction positive s excess.length r
      | 'e' :: r => readExponent positive s excess.length r
      | 'E' :: r => readExponent positive s excess.length r
      | r =>
        if excess.isEmpty then some (integer positive s, r)
        else (floatOfParts positive s excess.length).map (·, r)
    else none

/-- A number at the start of a text. -/
def readNumber (cs : List Char) : Option (Number × List Char) :=
  match cs with
  | '-' :: r => readMagnitude false r
  | r => readMagnitude true r

end ChangeImpact.Json
