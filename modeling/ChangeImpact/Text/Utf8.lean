/-!
# Bytes and text

Stored content is a list of octets. `Utf8.encode` writes a text in UTF-8 and
`Utf8.decode` reads octets back without ever failing: each maximal prefix of a
broken sequence becomes one replacement character. The reader is a one-octet
automaton whose state is the sequence that is still open.
-/

namespace ChangeImpact

/-- Raw content: a list of octets. -/
abbrev Bytes := List UInt8

namespace Utf8

/-- The UTF-8 octets of a text. -/
def encode (text : String) : Bytes :=
  text.toList.flatMap String.utf8EncodeChar

/-- The character that stands for a broken sequence, U+FFFD. -/
def replacement : Char := Char.ofNat 0xFFFD

/-- A sequence that has begun: the scalar bits read so far, the number of octets
still missing, and the range in which the next octet has to lie. -/
structure Open where
  /-- Scalar bits collected so far. -/
  bits : Nat
  /-- Octets still missing; positive while the sequence is open. -/
  missing : Nat
  /-- Least octet that continues the sequence. -/
  low : Nat
  /-- Greatest octet that continues the sequence. -/
  high : Nat
deriving DecidableEq, Repr

/-- What an octet means where no sequence is open: a finished character or the
lead of a longer sequence. The ranges exclude overlong forms, surrogates and
values above U+10FFFF at their second octet. -/
def begin (octet : UInt8) : List Char × Option Open :=
  let b := octet.toNat
  if b < 0x80 then ([Char.ofNat b], none)
  else if b < 0xC2 then ([replacement], none)
  else if b < 0xE0 then ([], some ⟨b - 0xC0, 1, 0x80, 0xBF⟩)
  else if b = 0xE0 then ([], some ⟨0, 2, 0xA0, 0xBF⟩)
  else if b = 0xED then ([], some ⟨0xD, 2, 0x80, 0x9F⟩)
  else if b < 0xF0 then ([], some ⟨b - 0xE0, 2, 0x80, 0xBF⟩)
  else if b = 0xF0 then ([], some ⟨0, 3, 0x90, 0xBF⟩)
  else if b < 0xF4 then ([], some ⟨b - 0xF0, 3, 0x80, 0xBF⟩)
  else if b = 0xF4 then ([], some ⟨4, 3, 0x80, 0x8F⟩)
  else ([replacement], none)

/-- One octet of input: the characters that it finishes and the sequence it leaves open. -/
def step (state : Option Open) (octet : UInt8) : List Char × Option Open :=
  match state with
  | none => begin octet
  | some o =>
    let b := octet.toNat
    if o.low ≤ b ∧ b ≤ o.high then
      let bits := o.bits * 64 + (b - 0x80)
      if o.missing ≤ 1 then ([Char.ofNat bits], none)
      else ([], some ⟨bits, o.missing - 1, 0x80, 0xBF⟩)
    else
      let (chars, next) := begin octet
      (replacement :: chars, next)

/-- The characters of the octets that follow `state`. A sequence left open at the
end counts as broken. -/
def decodeFrom : Option Open → Bytes → List Char
  | none, [] => []
  | some _, [] => [replacement]
  | state, octet :: rest =>
    let (chars, next) := step state octet
    chars ++ decodeFrom next rest

/-- The text that octets spell, broken sequences replaced. -/
def decode (bytes : Bytes) : String :=
  String.ofList (decodeFrom none bytes)

/-- The text that octets spell, when they are well formed. -/
def decode? (bytes : Bytes) : Option String :=
  let text := decode bytes
  if encode text = bytes then some text else none

end Utf8

end ChangeImpact
