import ChangeImpact.Workflow.Indexing

/-!
# Approval and rejection

The owner of a project decides on its change requests. Approval makes the
author's drafts the committed content; the drafts are stored under keys of their
own first, and what was stored is removed again when something fails.
-/

namespace ChangeImpact

open Operation

/-- What an approval did. -/
structure ApprovalOutcome where
  /-- The snapshot that it took. -/
  snapshot : String
  /-- The paths of the promoted drafts. -/
  promotedPaths : List String
deriving DecidableEq, Repr

/-- What a promotion of a draft will write. -/
def promotionOf (grammar : Grammar) (project : String) (f : ProjectFile) (d : Draft) :
    PromotedFile :=
  let content := Utf8.encode d.content
  { file := f.id
    draft := d.id
    storageKey := revisionKey project d.id f.path
    hash := Digest.sha256 content
    size := content.length
    symbols := (parseFile grammar f.path content).map (·.parsed) }

/-- The file that a draft is for. It has to belong to the project. -/
def draftedFile (project : String) (d : Draft) : Operation ProjectFile :=
  need (fun s => do
    let file ← s.file? d.file
    .ok (file.filter (·.project = project))) ("project file " ++ d.file)

/-- Store objects one after the other until one is refused. Answers with the keys that
were stored and with the refusal, if there was one. -/
def putAll : List (String × Bytes) → Objects → List String × Option Failure × Objects
  | [], o => ([], none, o)
  | (key, data) :: rest, o =>
    match o.put key data with
    | .error e => ([], some e, o)
    | .ok o =>
      let (keys, refusal, o) := putAll rest o
      (key :: keys, refusal, o)

/-- Remove objects. One that cannot be removed stays. -/
def removeAll (keys : List String) (o : Objects) : Objects :=
  keys.foldl (fun o key => (o.delete key).toOption.getD o) o

/-- Store the content of drafts and write an approval, or neither. -/
def storeAndCommit (contents : List (String × Bytes)) (commit : ApprovalCommit) :
    Operation String := do
  let before ← get
  let (keys, refusal, objects) := putAll contents before.objects
  let undo : Operation Unit := modify fun w => { w with objects := removeAll keys objects }
  match refusal with
  | some e => undo; fail e
  | none =>
    set { before with objects }
    let snapshot ← freshId
    match before.store.commitApproval commit snapshot with
    | .ok store => modify (fun w => { w with store }); pure snapshot
    | .error e => undo; fail e

/-- Tell the author, then each contributor of the impacts once. -/
def notifyDecision (request : ChangeRequest) (impacts : List Impact) (notice : Notice) :
    Operation Unit :=
  (Ordered.distinct (request.author :: impacts.map (·.contributor))).forM fun user =>
    publish user notice request.id

/-- Approve a request. Only the owner may, and a project of full strictness demands that
no impact is open. -/
def approveRequest (setup : Setup) (id user : String) : Operation ApprovalOutcome := do
  let request ← getRequest id
  let project ← getProject request.project
  require (project.owner = user) (.unauthorized user .approve)
  require (request.status = .analysisComplete || request.status = .pendingReview)
    (.invalidTransition request.status .approve)
  let impacts ← read (·.impactsOf id)
  require (project.strictness ≠ .full || openCount impacts = 0)
    (.unresolvedImpacts (openCount impacts))
  let drafts ← query (·.activeDrafts request.author request.component)
  let promotions ← drafts.mapM fun d => do
    let f ← draftedFile project.id d
    pure (promotionOf setup.grammar project.id f d, f.path, d)
  let stabilize ← query (·.affectedBy id)
  let resolvedAt ← now
  let snapshot ← storeAndCommit
    (promotions.map fun (p, _, d) => (p.storageKey, Utf8.encode d.content))
    { project := project.id, change := request.id, promoted := promotions.map (·.1), stabilize
      resolvedAt }
  notifyDecision request impacts .approved
  pure { snapshot, promotedPaths := promotions.map (·.2.1) }

/-- Approve a request and rebuild the graph of its project. -/
def approveAndRebuild (setup : Setup) (id user : String) : Operation ApprovalOutcome := do
  let request ← getRequest id
  let outcome ← approveRequest setup id user
  let _ ← rebuildGraph request.project
  pure outcome

/-- Reject a request. Only the owner may, and only while it is not decided. -/
def rejectRequest (id user : String) : Operation Unit := do
  let request ← getRequest id
  let project ← getProject request.project
  require (project.owner = user) (.unauthorized user .reject)
  require (!request.status.isTerminal) (.invalidTransition request.status .reject)
  let impacts ← read (·.impactsOf id)
  let resolvedAt ← now
  write fun s => .ok (s.commitRejection id (s.affectedBy id) resolvedAt)
  notifyDecision request impacts .rejected

end ChangeImpact
