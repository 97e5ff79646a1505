import ChangeImpact.Store.Projects

/-!
# Stored change requests and impacts

Change requests are listed with the latest first, impacts by component and
contributor. An impact is acknowledged or dismissed at most once.
-/

namespace ChangeImpact.Store

/-- Whether there is a request of that identifier. -/
def hasRequest (s : Store) (id : String) : Bool := s.requests.any (·.id = id)

/-- Add a change request. -/
def insertRequest (r : ChangeRequest) (s : Store) : Except Failure Store := do
  demand (!s.hasRequest r.id) (.duplicateKey "change_requests" ["id"])
  demand (s.hasProject r.project && s.hasComponent r.component) .foreignKey
  .ok { s with requests := s.requests ++ [r] }

/-- The request of an identifier. -/
def request? (s : Store) (id : String) : Except Failure (Option ChangeRequest) :=
  s.readFirst [.changeStatus] (·.id) (s.requests.find? (·.id = id))

/-- The requests of a project, the latest first. -/
def requestsOf (s : Store) (project : String) : Except Failure (List ChangeRequest) :=
  s.readRows [.changeStatus] (·.id)
    (Ordered.sortBy (fun a b => decide (b.createdAt ≤ a.createdAt))
      (s.requests.filter (·.project = project)))

/-- Write the status of a request and what goes with it. -/
def updateRequest (id : String) (f : ChangeRequest → ChangeRequest) (s : Store) : Store :=
  { s with requests := updateWhere (·.id = id) f s.requests }.mend .changeStatus (· = id)

/-- Give a request a status. -/
def setStatus (id : String) (status : ChangeStatus) (now : Instant) (s : Store) :
    Except Failure Store := do
  demand (s.hasRequest id) (.notFound ("change request " ++ id))
  .ok (s.updateRequest id fun r => { r with status, updatedAt := now })

/-- Add an impact. -/
def insertImpact (i : Impact) (s : Store) : Except Failure Store := do
  demand (!s.impacts.any (·.id = i.id)) (.duplicateKey "change_impacts" ["id"])
  demand (s.hasRequest i.change && s.hasComponent i.component) .foreignKey
  .ok { s with impacts := s.impacts ++ [i] }

/-- Add some impacts, or none if one of them cannot be added. -/
def insertImpacts (is : List Impact) (s : Store) : Except Failure Store :=
  is.foldlM (fun s i => s.insertImpact i) s

/-- Whether the status of a request is stored as a given one. -/
def statusIs (s : Store) (r : ChangeRequest) (status : ChangeStatus) : Bool :=
  r.status = status && s.isReadable [.changeStatus] r.id

/-- Store the result of an analysis: move the request from pending to complete, add its
impacts and flag the affected components. Nothing happens when the request is not
pending any more. -/
def commitAnalysis (id : String) (is : List Impact) (flagged : List String) (now : Instant)
    (s : Store) : Except Failure (Bool × Store) :=
  if s.requests.any fun r => r.id = id && s.statusIs r .pendingAnalysis then do
    let s ← (s.updateRequest id fun r =>
      { r with status := .analysisComplete, updatedAt := now }).insertImpacts is
    .ok (true, s.setComponentStatus flagged .flagged)
  else .ok (false, s)

/-- The columns of an impact that have to be read. -/
def impactColumns : List Column := [.detectionMethod, .affectedLines, .comment]

/-- The impact of an identifier. -/
def impact? (s : Store) (id : String) : Except Failure (Option Impact) :=
  s.readFirst impactColumns (·.id) (s.impacts.find? (·.id = id))

/-- The impacts of a request by component and contributor. -/
def impactsOf (s : Store) (change : String) : Except Failure (List Impact) :=
  s.readRows impactColumns (·.id)
    (Ordered.sortBy
      (fun a b => !decide ([b.component, b.contributor] < [a.component, a.contributor]))
      (s.impacts.filter (·.change = change)))

/-- Change an impact that is still open. Answers whether there was one. -/
def resolveImpact (id : String) (f : Impact → Impact) (s : Store) : Bool × Store :=
  let isOpen (i : Impact) : Bool := i.id = id && !i.isResolved
  (s.impacts.any isOpen, { s with impacts := updateWhere isOpen f s.impacts })

/-- Note that an impact was taken note of. -/
def acknowledge (id : String) (at_ : Instant) (auto : Bool) (s : Store) : Bool × Store :=
  s.resolveImpact id fun i =>
    { i with acknowledged := true, acknowledgedAt := some at_, autoConfirmed := auto }

/-- Note that an impact was turned down. -/
def dismiss (id : String) (at_ : Instant) (s : Store) : Bool × Store :=
  s.resolveImpact id fun i => { i with dismissed := true, acknowledgedAt := some at_ }

/-- Write what a language model said about an impact. -/
def annotate (id : String) (comment : Json) (s : Store) : Store :=
  { s with
    impacts := updateWhere (·.id = id) (fun i => { i with comment := some comment })
      s.impacts }.mend .comment (· = id)

/-- The request of an impact, unless its status is stored as a final one. -/
def openRequestOf (s : Store) (i : Impact) : Option ChangeRequest :=
  (s.requests.find? (·.id = i.change)).filter fun r =>
    !(s.statusIs r .approved || s.statusIs r .rejected)

/-- The open impacts of requests that are not decided, each with the time at which its
request was made, the earliest first. -/
def openImpacts (s : Store) : Except Failure (List (Impact × Instant)) :=
  s.readRows impactColumns (·.1.id)
    (Ordered.sortBy
      (fun a b => decide (a.2 < b.2) || (a.2 = b.2 && decide (a.1.id ≤ b.1.id)))
      ((s.impacts.filter (!·.isResolved)).filterMap fun i =>
        (s.openRequestOf i).map fun r => (i, r.createdAt)))

/-- The components that a request's impacts name, ascending. -/
def affectedBy (s : Store) (change : String) : List String :=
  Ordered.ofList ((s.impacts.filter (·.change = change)).map (·.component))

end ChangeImpact.Store
