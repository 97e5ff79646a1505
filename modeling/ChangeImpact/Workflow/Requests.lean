import ChangeImpact.Workflow.World

/-!
# Change requests

The life of a change request up to the decision: it is made as a draft or for
analysis, and once it is analysed its impacts are acknowledged or dismissed by the
contributors they concern. When no impact is open any more it is ready for review.
-/

namespace ChangeImpact

open Operation

/-- The request of an identifier. -/
def getRequest (id : String) : Operation ChangeRequest :=
  need (·.request? id) ("change request " ++ id)

/-- The project of an identifier. -/
def getProject (id : String) : Operation Project :=
  need (·.project? id) ("project " ++ id)

/-- The impact of an identifier. -/
def getImpact (id : String) : Operation Impact :=
  need (·.impact? id) ("impact " ++ id)

/-- Go on if a condition holds. -/
def require (condition : Bool) (otherwise : Failure) : Operation Unit :=
  if condition then pure () else fail otherwise

/-- Make a change request on a component of a project, for analysis at once or as a
draft. -/
def createRequest (project component author title description : String) (submitted : Bool) :
    Operation ChangeRequest := do
  let what := "component " ++ component ++ " in project " ++ project
  let c ← need (fun s => do
    let found ← s.component? component
    .ok (found.filter (·.project = project))) what
  let createdAt ← now
  let id ← freshId
  let request : ChangeRequest :=
    { id, project, component := c.id, author, title, description
      status := if submitted then .pendingAnalysis else .draft
      createdAt, updatedAt := createdAt }
  write (·.insertRequest request)
  pure request

/-- Hand a draft over to analysis. Only its author may. -/
def submitRequest (id user : String) : Operation ChangeRequest := do
  let request ← getRequest id
  require (request.author = user) (.unauthorized user .submit)
  require (request.status = .draft) (.invalidTransition request.status .submit)
  let time ← now
  write (·.setStatus id .pendingAnalysis time)
  pure { request with status := .pendingAnalysis }

/-- The number of impacts that somebody still has to look at. -/
def openCount (impacts : List Impact) : Nat :=
  impacts.countP (!·.isResolved)

/-- Move an analysed request on to review when none of its impacts is open. A request in
any other status stays as it is. -/
def reEvaluate (id : String) : Operation ChangeStatus := do
  let request ← getRequest id
  if request.status ≠ .analysisComplete then pure request.status
  else
    let impacts ← read (·.impactsOf id)
    if 0 < openCount impacts then pure request.status
    else
      let time ← now
      write (·.setStatus id .pendingReview time)
      publish request.author .pendingReview id
      pure .pendingReview

/-- Check that a user may resolve an impact: it is theirs and open, and so is its request. -/
def checkResolvable (impact : Impact) (user : String) (activity : Activity) : Operation Unit := do
  require (impact.contributor = user) (.unauthorized user activity)
  require (!impact.isResolved) (.alreadyResolved impact.id)
  let request ← getRequest impact.change
  require (!request.status.isTerminal) (.invalidTransition request.status activity)

/-- Take note of an impact. -/
def acknowledgeImpact (id user : String) : Operation ChangeStatus := do
  let impact ← getImpact id
  checkResolvable impact user .acknowledge
  let time ← now
  let done ← writeWith fun s => .ok (s.acknowledge id time false)
  require done (.alreadyResolved id)
  reEvaluate impact.change

/-- Turn an impact down. What the parser found cannot be turned down. -/
def dismissImpact (id user : String) : Operation ChangeStatus := do
  let impact ← getImpact id
  checkResolvable impact user .dismiss
  require (impact.method ≠ .parser) .dismissalNotAllowed
  let time ← now
  let done ← writeWith fun s => .ok (s.dismiss id time)
  require done (.alreadyResolved id)
  reEvaluate impact.change

end ChangeImpact
