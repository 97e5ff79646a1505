import ChangeImpact.Failure
import ChangeImpact.Ordered
import ChangeImpact.Text.Utf8

/-!
# Objects in memory

Objects are octets by key. A store may refuse to write or to delete some keys;
a refusal changes nothing.
-/

namespace ChangeImpact

/-- Objects by key, ascending, and the keys whose writing or deletion is refused. -/
structure Objects where
  /-- The objects. -/
  entries : List (String × Bytes) := []
  /-- The keys that cannot be written. -/
  refusesPut : String → Bool := fun _ => false
  /-- The keys that cannot be deleted. -/
  refusesDelete : String → Bool := fun _ => false

namespace Objects

/-- The object under a key. -/
def get? (o : Objects) (key : String) : Option Bytes :=
  Ordered.find? key o.entries

/-- The object under a key, or what is said when there is none. -/
def get (o : Objects) (key : String) : Except Failure Bytes :=
  match o.get? key with
  | some data => .ok data
  | none => .error (.notFound ("object " ++ key))

/-- Whether there is an object under a key. -/
def holds (o : Objects) (key : String) : Bool := (o.get? key).isSome

/-- Store octets under a key. -/
def put (o : Objects) (key : String) (data : Bytes) : Except Failure Objects :=
  if o.refusesPut key then .error (.storage ("write refused for " ++ key))
  else .ok { o with entries := Ordered.upsert key data o.entries }

/-- Remove the object under a key, if there is one. -/
def delete (o : Objects) (key : String) : Except Failure Objects :=
  if o.refusesDelete key then .error (.storage ("delete refused for " ++ key))
  else .ok { o with entries := o.entries.filter (·.1 ≠ key) }

/-- The number of objects. -/
def size (o : Objects) : Nat := o.entries.length

end Objects

end ChangeImpact
