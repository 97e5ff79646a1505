import ChangeImpact.Ordered

/-!
# JSON values

A value keeps the members of an object in the order in which they were read.
`Json.settle` makes an object out of them that has one value per key, the last
one given, with its keys in ascending order.
-/

namespace ChangeImpact

/-- A JSON number: an integer, or a double when it was written with a fraction or an
exponent or does not fit 64 bits. -/
inductive Number where
  /-- An integer of the 64-bit ranges. -/
  | int (value : Int)
  /-- A finite double. -/
  | float (value : Float)
deriving DecidableEq

/-- A JSON value. -/
inductive Json where
  /-- The literal `null`. -/
  | null
  /-- A truth value. -/
  | bool (value : Bool)
  /-- A number. -/
  | number (value : Number)
  /-- A string. -/
  | string (value : String)
  /-- A list of values. -/
  | array (values : List Json)
  /-- Members in the order given. -/
  | object (members : List (String × Json))
deriving Inhabited

namespace Json

/-- An integer. -/
def int (n : Int) : Json := .number (.int n)

/-- A natural number. -/
def nat (n : Nat) : Json := .number (.int n)

/-- A text, or `null` for none. -/
def ofOption (f : α → Json) : Option α → Json
  | none => .null
  | some a => f a

/-- A list of strings. -/
def strings (xs : List String) : Json := .array (xs.map .string)

mutual
/-- One value per key, the last one given, keys ascending, at every depth. -/
def settle : Json → Json
  | .array values => .array (settleAll values)
  | .object members => .object (settleMembers members)
  | value => value

/-- `settle` on the values of an array. -/
def settleAll : List Json → List Json
  | [] => []
  | value :: rest => settle value :: settleAll rest

/-- `settle` on the members of an object. -/
def settleMembers : List (String × Json) → List (String × Json)
  | [] => []
  | (key, value) :: rest =>
    let later := settleMembers rest
    if later.any (·.1 = key) then later else Ordered.upsert key (settle value) later
end

/-- The value of a member; the last one of that name. -/
def member? (name : String) : Json → Option Json
  | .object members => (members.reverse.find? (·.1 = name)).map (·.2)
  | _ => none

/-- The text of a string. -/
def string? : Json → Option String
  | .string s => some s
  | _ => none

/-- The value of a truth value. -/
def bool? : Json → Option Bool
  | .bool b => some b
  | _ => none

/-- The values of an array. -/
def array? : Json → Option (List Json)
  | .array xs => some xs
  | _ => none

/-- The members of an object. -/
def object? : Json → Option (List (String × Json))
  | .object ms => some ms
  | _ => none

/-- An integer; a double is none, whatever its value. -/
def int? : Json → Option Int
  | .number (.int n) => some n
  | _ => none

/-- A non-negative integer. -/
def nat? : Json → Option Nat
  | .number (.int (.ofNat n)) => some n
  | _ => none

/-- Any number as a double. -/
def float? : Json → Option Float
  | .number (.int n) => some (Float.ofInt n)
  | .number (.float x) => some x
  | _ => none

/-- Whether the value is the literal `null`. -/
def isNull : Json → Bool
  | .null => true
  | _ => false

end Json

end ChangeImpact
