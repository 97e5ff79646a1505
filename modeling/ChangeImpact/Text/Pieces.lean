import ChangeImpact.Text.Classes

/-!
# Pieces of a text

Trimming, splitting and searching. Every function works on the list of
characters of a text, so that its laws are laws on lists.
-/

namespace ChangeImpact.Text

/-- The characters after the longest start on which `p` holds. -/
def trimStartBy (p : Char → Bool) (text : String) : String :=
  String.ofList (text.toList.dropWhile p)

/-- The characters before the longest end on which `p` holds. -/
def trimEndBy (p : Char → Bool) (text : String) : String :=
  String.ofList (text.toList.reverse.dropWhile p).reverse

/-- Both ends without the characters on which `p` holds. -/
def trimBy (p : Char → Bool) (text : String) : String :=
  trimEndBy p (trimStartBy p text)

/-- Both ends without white space. -/
def trim (text : String) : String :=
  trimBy isBlank text

/-- The characters that quote a path in source text. -/
def isQuote (c : Char) : Bool :=
  c == '"' || c == '\'' || c == '\x60' || c == '<' || c == '>'

/-- A literal without surrounding white space and then without its quotes. -/
def unquote (raw : String) : String :=
  trimBy isQuote (trim raw)

/-- The maximal pieces between characters on which `p` holds, empty ones included. -/
def splitBy (p : Char → Bool) : List Char → List (List Char)
  | [] => [[]]
  | c :: cs =>
    if p c then [] :: splitBy p cs
    else match splitBy p cs with
      | [] => [[c]]
      | piece :: pieces => (c :: piece) :: pieces

/-- The pieces between occurrences of `sep`. -/
def pieces (sep : Char) (text : String) : List String :=
  (splitBy (· == sep) text.toList).map String.ofList

/-- The words of a text: its non-empty pieces between white space. -/
def words (text : String) : List String :=
  ((splitBy isBlank text.toList).filter (!·.isEmpty)).map String.ofList

/-- Whether `text` starts with `start`. -/
def startsWith (text start : String) : Bool :=
  start.toList.isPrefixOf text.toList

/-- Whether `text` ends with `ending`. -/
def endsWith (text ending : String) : Bool :=
  ending.toList.isSuffixOf text.toList

/-- Whether `part` occurs in `text`. -/
def occursIn (part : List Char) : List Char → Bool
  | [] => part.isEmpty
  | c :: cs => part.isPrefixOf (c :: cs) || occursIn part cs

/-- Whether `text` contains `part`. -/
def contains (text part : String) : Bool :=
  occursIn part.toList text.toList

/-- The characters before the first occurrence of `part`, all of them when there is none. -/
def beforeFirst (part : List Char) : List Char → List Char
  | [] => []
  | c :: cs => if part.isPrefixOf (c :: cs) then [] else c :: beforeFirst part cs

/-- The two sides of the first `sep`. -/
def splitFirst (sep : Char) : List Char → Option (List Char × List Char)
  | [] => none
  | c :: cs =>
    if c = sep then some ([], cs)
    else (splitFirst sep cs).map fun (before, after) => (c :: before, after)

/-- The two sides of the last occurrence of `sep`. -/
def splitLast (sep : List Char) : List Char → Option (List Char × List Char)
  | [] => none
  | c :: cs =>
    match splitLast sep cs with
    | some (before, after) => some (c :: before, after)
    | none =>
      if sep.isPrefixOf (c :: cs) then some ([], (c :: cs).drop sep.length) else none

/-- The two sides of the last occurrence of `sep` in a text. -/
def splitLast? (sep text : String) : Option (String × String) :=
  (splitLast sep.toList text.toList).map fun (before, after) =>
    (String.ofList before, String.ofList after)

/-- Every occurrence of one character replaced by another. -/
def replaceChar (old new : Char) (text : String) : String :=
  String.ofList (text.toList.map fun c => if c = old then new else c)

/-- The first line of a text, without its line end `\n` or `\r\n`. -/
def firstLine (text : String) : String :=
  let line := text.toList.takeWhile (· ≠ '\n')
  if line.length < text.toList.length ∧ line.getLast? = some '\r' then
    String.ofList line.dropLast
  else String.ofList line

/-- One character inside double quotes: the quote and the backslash are escaped, the
usual control characters go by their letters and the others by their number. -/
def quoteChar (c : Char) : List Char :=
  if c = '"' then ['\\', '"']
  else if c = '\\' then ['\\', '\\']
  else if c = '\n' then ['\\', 'n']
  else if c = '\r' then ['\\', 'r']
  else if c = '\t' then ['\\', 't']
  else if c = '\x00' then ['\\', '0']
  else if c.toNat < 0x20 ∨ (0x7F ≤ c.toNat ∧ c.toNat < 0xA0) then
    ['\\', 'u', '\x7b'] ++ Nat.toDigits 16 c.toNat ++ ['\x7d']
  else [c]

/-- A text in double quotes. -/
def quoted (text : String) : String :=
  String.ofList ('"' :: text.toList.flatMap quoteChar ++ ['"'])

end ChangeImpact.Text
