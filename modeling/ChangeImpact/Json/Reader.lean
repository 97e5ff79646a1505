import ChangeImpact.Json.Number

/-!
# Reading JSON text

`Json.read` accepts one value of RFC 8259 with blanks around it and nothing
else. Arrays and objects nest at most 127 deep. Members keep their order and
their duplicates; `Json.parse` settles them.
-/

namespace ChangeImpact.Json

/-- The four blanks of JSON. -/
def isJsonBlank (c : Char) : Bool :=
  c == ' ' || c == '\t' || c == '\n' || c == '\r'

/-- The text after leading blanks. -/
def skipBlanks (cs : List Char) : List Char :=
  cs.dropWhile isJsonBlank

/-- The value of a hexadecimal digit. -/
def hexDigit? (c : Char) : Option Nat :=
  if c.isDigit then some (c.toNat - '0'.toNat)
  else if 'a' ≤ c ∧ c ≤ 'f' then some (c.toNat - 'a'.toNat + 10)
  else if 'A' ≤ c ∧ c ≤ 'F' then some (c.toNat - 'A'.toNat + 10)
  else none

/-- The code unit of four hexadecimal digits. -/
def readUnit : List Char → Option (Nat × List Char)
  | a :: b :: c :: d :: rest => do
    let a ← hexDigit? a
    let b ← hexDigit? b
    let c ← hexDigit? c
    let d ← hexDigit? d
    some (((a * 16 + b) * 16 + c) * 16 + d, rest)
  | _ => none

/-- The character of an escape `\u`: a unit outside the surrogates, or a high and a
low surrogate one after the other. -/
def readUnicode (cs : List Char) : Option (Char × List Char) := do
  let (unit, rest) ← readUnit cs
  if unit < 0xD800 ∨ 0xDFFF < unit then some (Char.ofNat unit, rest)
  else if 0xDBFF < unit then none
  else
    match rest with
    | '\\' :: 'u' :: more =>
      let (low, rest) ← readUnit more
      if 0xDC00 ≤ low ∧ low ≤ 0xDFFF then
        some (Char.ofNat (0x10000 + (unit - 0xD800) * 0x400 + (low - 0xDC00)), rest)
      else none
    | _ => none

/-- The character of an escape, after the backslash. -/
def readEscape (cs : List Char) : Option (Char × List Char) :=
  match cs with
  | '"' :: r => some ('"', r)
  | '\\' :: r => some ('\\', r)
  | '/' :: r => some ('/', r)
  | 'b' :: r => some ('\x08', r)
  | 'f' :: r => some ('\x0c', r)
  | 'n' :: r => some ('\n', r)
  | 'r' :: r => some ('\r', r)
  | 't' :: r => some ('\t', r)
  | 'u' :: r => readUnicode r
  | _ => none

/-- The characters of a string up to its closing quote. `fuel` bounds their number. -/
def readChars : Nat → List Char → Option (List Char × List Char)
  | 0, _ => none
  | _ + 1, [] => none
  | fuel + 1, c :: cs =>
    if c = '"' then some ([], cs)
    else if c = '\\' then
      match readEscape cs with
      | none => none
      | some (d, rest) => (readChars fuel rest).map fun (ds, after) => (d :: ds, after)
    else if c.toNat < 0x20 then none
    else (readChars fuel cs).map fun (ds, after) => (c :: ds, after)

/-- A string after its opening quote. -/
def readString (fuel : Nat) (cs : List Char) : Option (String × List Char) :=
  (readChars fuel cs).map fun (chars, rest) => (String.ofList chars, rest)

mutual
/-- A value at the start of a text, blanks before it skipped. `depth` is the number of
arrays and objects that may still open. -/
def readValue : Nat → Nat → List Char → Option (Json × List Char)
  | 0, _, _ => none
  | fuel + 1, depth, cs =>
    match skipBlanks cs with
    | 'n' :: 'u' :: 'l' :: 'l' :: r => some (.null, r)
    | 't' :: 'r' :: 'u' :: 'e' :: r => some (.bool true, r)
    | 'f' :: 'a' :: 'l' :: 's' :: 'e' :: r => some (.bool false, r)
    | '"' :: r => (readString fuel r).map fun (s, rest) => (.string s, rest)
    | '[' :: r =>
      if depth = 0 then none
      else match skipBlanks r with
        | ']' :: rest => some (.array [], rest)
        | _ => (readElements fuel (depth - 1) r).map fun (vs, rest) => (.array vs, rest)
    | '\x7b' :: r =>
      if depth = 0 then none
      else match skipBlanks r with
        | '\x7d' :: rest => some (.object [], rest)
        | _ => (readMembers fuel (depth - 1) r).map fun (ms, rest) => (.object ms, rest)
    | r => (readNumber r).map fun (n, rest) => (.number n, rest)

/-- One or more values up to the closing bracket. -/
def readElements : Nat → Nat → List Char → Option (List Json × List Char)
  | 0, _, _ => none
  | fuel + 1, depth, cs =>
    match readValue fuel depth cs with
    | none => none
    | some (value, rest) =>
      match skipBlanks rest with
      | ',' :: more =>
        (readElements fuel depth more).map fun (vs, after) => (value :: vs, after)
      | ']' :: after => some ([value], after)
      | _ => none

/-- One or more members up to the closing brace. -/
def readMembers : Nat → Nat → List Char → Option (List (String × Json) × List Char)
  | 0, _, _ => none
  | fuel + 1, depth, cs =>
    match skipBlanks cs with
    | '"' :: r =>
      match readString fuel r with
      | none => none
      | some (key, rest) =>
        match skipBlanks rest with
        | ':' :: body =>
          match readValue fuel depth body with
          | none => none
          | some (value, rest) =>
            match skipBlanks rest with
            | ',' :: more =>
              (readMembers fuel depth more).map fun (ms, after) => ((key, value) :: ms, after)
            | '\x7d' :: after => some ([(key, value)], after)
            | _ => none
        | _ => none
    | _ => none
end

/-- How deep arrays and objects may nest. -/
def maxDepth : Nat := 127

/-- The value that a text spells, members as they were given. -/
def readText (cs : List Char) : Option Json :=
  match readValue (cs.length + 1) maxDepth cs with
  | some (value, rest) => if (skipBlanks rest).isEmpty then some value else none
  | none => none

/-- The value that a text spells, members as they were given. -/
def read (text : String) : Option Json :=
  readText text.toList

/-- The settled value that a text spells. -/
def parse (text : String) : Option Json :=
  (read text).map settle

end ChangeImpact.Json
