import ChangeImpact.Json.Basic
import ChangeImpact.Words

/-!
# Decoding records

Rules for reading records out of JSON values. A record is an object of its
fields, others ignored, or the list of its fields in order; a field may be left
out where it has a default. Choices are given by their word, or as an object
with the word as its only key and `null` below it.
-/

namespace ChangeImpact.Json

/-- The members of some names, each at most once. A list gives the fields in order and
may leave out the last ones. -/
def fieldsOf (names : List String) : Json → Option (List (Option Json))
  | .object members =>
    if names.any fun n => 1 < members.countP fun m => m.1 = n then none
    else some (names.map fun n => (members.find? (·.1 = n)).map (·.2))
  | .array values =>
    if values.length ≤ names.length then
      some (values.map some ++ List.replicate (names.length - values.length) none)
    else none
  | _ => none

/-- A field that must be there. -/
def required {α : Type} (decode : Json → Option α) (field : Option Json) : Option α :=
  field.bind decode

/-- A field that stands for `default` when it is left out. -/
def withDefault {α : Type} (default : α) (decode : Json → Option α) : Option Json → Option α
  | none => some default
  | some v => decode v

/-- Either `null` or a value. -/
def nullable {α : Type} (decode : Json → Option α) (v : Json) : Option (Option α) :=
  if v.isNull then some none else (decode v).map some

/-- Line numbers fit 32 bits. -/
def lineLimit : Nat := Nat.pow 2 32

/-- A line number: an integer from 0 to below `2 ^ 32`. -/
def line? (v : Json) : Option Nat :=
  v.nat?.filter (· < lineLimit)

/-- A list of values of one type. -/
def list? {α : Type} (decode : Json → Option α) (v : Json) : Option (List α) :=
  v.array?.bind fun values => values.mapM decode

/-- One alternative of a closed choice. -/
def choice? (α : Type) [Wording α] : Json → Option α
  | .string word => Wording.ofText? α word
  | .object [(word, .null)] => Wording.ofText? α word
  | _ => none

end ChangeImpact.Json
