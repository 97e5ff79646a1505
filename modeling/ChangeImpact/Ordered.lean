/-!
# Strictly ordered lists

Sets and keyed collections whose order shows in an answer are lists in strictly
ascending order. `insert` and `upsert` keep that order, so two collections with
the same members are the same list.
-/

namespace ChangeImpact.Ordered

variable {α κ : Type}

/-- Insert a member of an ascending list, unless it is there already. -/
def insert [LT α] [DecidableLT α] [DecidableEq α] (a : α) : List α → List α
  | [] => [a]
  | b :: bs =>
    if a < b then a :: b :: bs
    else if a = b then b :: bs
    else b :: insert a bs

/-- The ascending list of the members of `xs`. -/
def ofList [LT α] [DecidableLT α] [DecidableEq α] (xs : List α) : List α :=
  xs.foldr insert []

/-- The ascending list of the members of both. -/
def union [LT α] [DecidableLT α] [DecidableEq α] (xs ys : List α) : List α :=
  xs.foldr insert ys

/-- Change the value at `key` in a list that ascends in its keys; a missing key
is inserted where it belongs. -/
def alter [LT κ] [DecidableLT κ] [DecidableEq κ] (key : κ) (f : Option α → α) :
    List (κ × α) → List (κ × α)
  | [] => [(key, f none)]
  | (k, v) :: rest =>
    if key < k then (key, f none) :: (k, v) :: rest
    else if key = k then (k, f (some v)) :: rest
    else (k, v) :: alter key f rest

/-- Set the value at `key`. -/
def upsert [LT κ] [DecidableLT κ] [DecidableEq κ] (key : κ) (value : α)
    (entries : List (κ × α)) : List (κ × α) :=
  alter key (fun _ => value) entries

/-- The value at `key`. -/
def find? [DecidableEq κ] (key : κ) (entries : List (κ × α)) : Option α :=
  (entries.find? (·.1 = key)).map (·.2)

/-- Add a member at the end, unless it is there already. Keeps first-insertion order. -/
def insertOnce [DecidableEq α] (a : α) (xs : List α) : List α :=
  if a ∈ xs then xs else xs ++ [a]

/-- The members of `xs` in the order of their first occurrence. -/
def distinct [DecidableEq α] (xs : List α) : List α :=
  xs.foldl (fun seen a => insertOnce a seen) []

/-- Sort by a key, equal keys keeping their order. -/
def sortBy (le : α → α → Bool) (xs : List α) : List α :=
  xs.mergeSort le

end ChangeImpact.Ordered
