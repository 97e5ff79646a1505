import ChangeImpact.Words

/-!
# Failures

Why an operation on projects is refused or breaks off, and what is said about
it. Refusals leave every stored record as it was.
-/

namespace ChangeImpact

/-- What a user may be refused to do. -/
inductive Activity where
  | submit
  | acknowledge
  | dismiss
  | approve
  | reject
  | analyze
deriving DecidableEq, Repr

/-- The word of an activity in messages. -/
def Activity.word : Activity → String
  | submit => "submit"
  | acknowledge => "acknowledge"
  | dismiss => "dismiss"
  | approve => "approve"
  | reject => "reject"
  | analyze => "analyze"

/-- A cause of failure. -/
inductive Failure where
  /-- The index was given something it does not hold. -/
  | index (reason : String)
  /-- An object cannot be stored or fetched. -/
  | storage (reason : String)
  /-- There is nothing of that name. -/
  | notFound (what : String)
  /-- The language model gave no answer. -/
  | assistant
  /-- The user lacks the right. -/
  | unauthorized (user : String) (activity : Activity)
  /-- The request's status does not allow the activity. -/
  | invalidTransition (status : ChangeStatus) (activity : Activity)
  /-- Impacts are still open. -/
  | unresolvedImpacts (count : Nat)
  /-- An impact that the parser found cannot be dismissed. -/
  | dismissalNotAllowed
  /-- The impact is acknowledged or dismissed already. -/
  | alreadyResolved (impact : String)
  /-- A row refers to a row that is not there. -/
  | foreignKey
  /-- A row repeats a key: the table and the columns of the key. -/
  | duplicateKey (table : String) (columns : List String)
  /-- A row violates a condition on its table. -/
  | condition (expression : String)
  /-- A stored text is no value of its column, or a statement does not fit the tables. -/
  | unreadable
  /-- The file system refused. -/
  | fileSystem
  /-- A text is not JSON of the expected shape. -/
  | json
  /-- A point in time lies outside the calendar. -/
  | calendar
deriving DecidableEq, Repr

/-- What is said of a violated key. -/
def keyText (table : String) (columns : List String) : String :=
  ", ".intercalate (columns.map fun c => table ++ "." ++ c)

/-- What is said of a failure; nothing where the wording is not fixed. -/
def Failure.message : Failure → Option String
  | index reason => some ("Index error: " ++ reason)
  | storage reason => some ("Storage error: " ++ reason)
  | notFound what => some ("Not found: " ++ what)
  | assistant => none
  | unauthorized user activity =>
    some ("user " ++ user ++ " is not allowed to " ++ activity.word)
  | invalidTransition status activity =>
    some ("cannot " ++ activity.word ++ " a change request in status " ++ wordOf status)
  | unresolvedImpacts count =>
    some (toString count ++ " impact(s) still need acknowledgement before approval")
  | dismissalNotAllowed => some "parser-detected impacts must be acknowledged, not dismissed"
  | alreadyResolved impact => some ("impact " ++ impact ++ " is already resolved")
  | foreignKey => some "SQLite error: FOREIGN KEY constraint failed"
  | duplicateKey table columns =>
    some ("SQLite error: UNIQUE constraint failed: " ++ keyText table columns)
  | condition expression => some ("SQLite error: CHECK constraint failed: " ++ expression)
  | unreadable => none
  | fileSystem => none
  | json => none
  | calendar => none

end ChangeImpact
