/-!
# Shortest decimals of binary fractions

The decimal written for a double is the one with the fewest digits among those
that read back as the same double, and of these the nearest. A finite double is
`significand · 2 ^ exponent`; the reals that round to it form an interval, and
on each decimal grid only the two neighbours of the value have to be tried.
All arithmetic is exact, on natural numbers.
-/

namespace ChangeImpact.Decimal

/-- A positive binary fraction `significand · 2 ^ exponent`. -/
structure Binary where
  /-- The significand, below `2 ^ 53`. -/
  significand : Nat
  /-- The power of two. -/
  exponent : Int
  /-- Whether the next smaller double is nearer than the next greater one. -/
  narrowBelow : Bool
deriving DecidableEq, Repr

/-- The magnitude of a finite double, read from its bit pattern. -/
def Binary.ofBits (bits : Nat) : Binary :=
  let fraction : Nat := bits % Nat.pow 2 52
  let biased : Nat := bits / Nat.pow 2 52 % Nat.pow 2 11
  if biased = 0 then ⟨fraction, -1074, false⟩
  else ⟨Nat.pow 2 52 + fraction, (biased : Int) - 1075, fraction = 0 && 1 < biased⟩

/-- A decimal `digits · 10 ^ exponent`. -/
structure Digits where
  /-- The digits as a number. -/
  digits : Nat
  /-- The power of ten. -/
  exponent : Int
deriving DecidableEq, Repr

/-- A value and the ends of its rounding interval over one denominator. -/
structure Window where
  /-- Numerator of the lower end. -/
  low : Nat
  /-- Numerator of the value. -/
  mid : Nat
  /-- Numerator of the upper end. -/
  high : Nat
  /-- The common denominator. -/
  den : Nat
  /-- Whether the ends themselves round to the value. -/
  closed : Bool
deriving DecidableEq, Repr

/-- The rounding interval of a binary fraction: half way to its neighbours, ends
included when the significand is even. -/
def Binary.window (b : Binary) : Window :=
  let up := Nat.pow 2 (b.exponent - 2).toNat
  let mid := 4 * b.significand
  let low := if b.narrowBelow then mid - 1 else mid - 2
  ⟨low * up, mid * up, (mid + 2) * up, Nat.pow 2 (2 - b.exponent).toNat, b.significand % 2 = 0⟩

/-- The window in units of `10 ^ k`. -/
def Window.scale (w : Window) (k : Int) : Window :=
  let up := Nat.pow 10 (-k).toNat
  { w with
    low := w.low * up
    mid := w.mid * up
    high := w.high * up
    den := w.den * Nat.pow 10 k.toNat }

/-- Whether the integer `c` lies in the window. -/
def Window.holds (w : Window) (c : Nat) : Bool :=
  if w.closed then w.low ≤ c * w.den && c * w.den ≤ w.high
  else w.low < c * w.den && c * w.den < w.high

/-- The integer of the window next to the value: of the two neighbours the one that
lies inside, the nearer when both do, the even one on a tie. -/
def Window.nearest? (w : Window) : Option Nat :=
  let below := w.mid / w.den
  let above := below + 1
  match w.holds below, w.holds above with
  | true, false => some below
  | false, true => some above
  | false, false => none
  | true, true =>
    let down := w.mid - below * w.den
    let upward := above * w.den - w.mid
    if down < upward then some below
    else if upward < down then some above
    else if below % 2 = 0 then some below else some above

/-- The number of decimal digits of a natural number. -/
def width (n : Nat) : Nat :=
  (Nat.toDigits 10 n).length

/-- The power of ten of the leading digit of `mid / den`. -/
def Window.magnitude (w : Window) : Int :=
  if w.den ≤ w.mid then (width (w.mid / w.den) : Int) - 1
  else -(width ((w.den + w.mid - 1) / w.mid - 1) : Int)

/-- Drop trailing zeros of the digits, at most `fuel` of them. -/
def Digits.strip : Nat → Digits → Digits
  | 0, d => d
  | fuel + 1, d =>
    if d.digits % 10 = 0 ∧ d.digits ≠ 0 then strip fuel ⟨d.digits / 10, d.exponent + 1⟩ else d

/-- The shortest decimal that reads back as `b`: the first grid of 1, 2, … 17 digits
with a point in the window. -/
def Binary.shortest (b : Binary) : Digits :=
  let w := b.window
  let top := w.magnitude
  let grid (n : Nat) : Option Digits :=
    let k := top - n
    ((w.scale k).nearest?).map fun c => Digits.strip 20 ⟨c, k⟩
  ((List.range 17).findSome? grid).getD ⟨b.significand, 0⟩

/-- How a decimal is laid out: the powers of ten between which it is written
without an exponent. -/
structure Layout where
  /-- Values below ten to this power are written positionally. -/
  upper : Int
  /-- Values from ten to this power on are written positionally. -/
  lower : Int
deriving DecidableEq, Repr

/-- Positional from `1e-5` to below `1e16`, with `.0` after an integral value;
otherwise one digit, the rest after a point, and a bare exponent. -/
def number : Layout := ⟨16, -5⟩

/-- A run of zeros. -/
def zeros (n : Nat) : String :=
  String.ofList (List.replicate n '0')

/-- The text of a decimal in a layout. -/
def Digits.render (layout : Layout) (d : Digits) : String :=
  let ds := Nat.toDigits 10 d.digits
  let point : Int := ds.length + d.exponent
  if 0 ≤ d.exponent ∧ point ≤ layout.upper then
    String.ofList ds ++ zeros d.exponent.toNat ++ ".0"
  else if 0 < point ∧ point ≤ layout.upper then
    String.ofList (ds.take point.toNat) ++ "." ++ String.ofList (ds.drop point.toNat)
  else if layout.lower < point ∧ point ≤ 0 then
    "0." ++ zeros (-point).toNat ++ String.ofList ds
  else
    let rest := ds.drop 1
    let mantissa := String.ofList (ds.take 1) ++
      (if rest.isEmpty then "" else "." ++ String.ofList rest)
    mantissa ++ "e" ++ toString (point - 1)

/-- The text of a finite double. -/
def ofFloat (x : Float) : String :=
  let bits := x.toBits.toNat
  let sign := if bits / Nat.pow 2 63 = 1 then "-" else ""
  let b := Binary.ofBits bits
  if b.significand = 0 then sign ++ "0.0" else sign ++ b.shortest.render number

end ChangeImpact.Decimal
