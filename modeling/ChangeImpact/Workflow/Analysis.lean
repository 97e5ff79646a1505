import ChangeImpact.Diff.Hunk
import ChangeImpact.Propagation
import ChangeImpact.Workflow.Indexing

/-!
# Analysis of a change request

The analysis compares the author's drafts with the committed files, finds the
components that the change reaches, and stores one impact for each of their
contributors. A language model may comment on the impacts afterwards; that
changes nothing but the comments.
-/

namespace ChangeImpact

open Operation

/-- What a language model is asked about a change. -/
structure EnrichmentJob where
  /-- The change request. -/
  change : String
  /-- The author. -/
  author : String
  /-- The differences of all drafted files. -/
  diff : String
  /-- The drafted files and the files that the change reaches. -/
  affectedFiles : List String
deriving DecidableEq, Repr

/-- What an analysis found. -/
structure ImpactReport where
  /-- The status of the request after it. -/
  status : ChangeStatus
  /-- The changed exports, ascending. -/
  changedSymbols : List String
  /-- The components that the change reaches, ascending. -/
  affectedComponents : List String
  /-- The number of impacts. -/
  impacts : Nat
  /-- What to ask a language model, if there is one. -/
  enrichment : Option EnrichmentJob
deriving DecidableEq, Repr

/-- A draft next to the file that it is for. -/
structure DraftedFile where
  /-- The path of the file. -/
  path : String
  /-- The difference between the committed and the drafted content. -/
  difference : Diff.DiffResult
  /-- The exports that the draft changes. -/
  changed : List String
deriving DecidableEq, Repr

/-- The exports that a draft of a file changes. Where the draft cannot be parsed every
committed export counts. -/
def draftedExports (grammar : Grammar) (f : ProjectFile) (content : String) : List String :=
  match parseFile grammar f.path (Utf8.encode content) with
  | some e => changedExports f.symbols e.parsed
  | none => (f.symbols.map ParsedFile.exportNames).getD []

/-- The committed content of a file as text, empty when there is none. -/
def committedText (o : Objects) (f : ProjectFile) : String :=
  ((o.get? f.storageKey).map Utf8.decode).getD ""

/-- A draft compared with its file. -/
def compareDraft (grammar : Grammar) (o : Objects) (f : ProjectFile) (d : Draft) : DraftedFile where
  path := f.path
  difference := Diff.compare (committedText o f) d.content
  changed := draftedExports grammar f d.content

/-- Drafts compared with their files. -/
def compareDrafts (grammar : Grammar) (drafts : List Draft) : Operation (List DraftedFile) :=
  drafts.filterMapM fun d => do
    let file ← read (·.file? d.file)
    let o := (← get).objects
    pure (file.map fun f => compareDraft grammar o f d)

/-- What a language model is asked about an analysed request. -/
def enrichmentOf (request : ChangeRequest) (drafted : List DraftedFile)
    (affected : List AffectedComponent) : EnrichmentJob where
  change := request.id
  author := request.author
  diff := "\n".intercalate (drafted.map fun d => d.difference.unified d.path)
  affectedFiles := (affected.flatMap (·.files)).foldl (fun paths p => Ordered.insertOnce p paths)
    (drafted.map (·.path))

/-- Analyse a request: store its impacts, flag the components that it reaches, tell the
contributors and the author, and move the request on. -/
def analyzeRequest (setup : Setup) (id : String) : Operation ImpactReport := do
  let request ← getRequest id
  require (request.status = .pendingAnalysis) (.invalidTransition request.status .analyze)
  let drafts ← query (·.activeDrafts request.author request.component)
  let drafted ← compareDrafts setup.grammar drafts
  let changed := Ordered.ofList (drafted.flatMap (·.changed))
  let contentChanged := drafted.any fun d => !d.difference.isEmpty
  let files ← read (·.filesOf request.project)
  let index := ExportIndex.build (files.filterMap indexed?)
  let edges ← query (·.edgesInto request.project request.component)
  let affected := affectedComponents request.component changed contentChanged edges index
  let contributors ← query fun s component => (s.contributorsOf component).map (·.user)
  let time ← now
  let impacts ← (impactedContributors affected contributors).mapM fun (a, user) => do
    pure (impactOn request.id time a user (← freshId))
  let reached := affected.map (·.component)
  let commitTime ← now
  let committed ← writeWith (·.commitAnalysis request.id impacts reached commitTime)
  if !committed then
    let current ← getRequest id
    fail (.invalidTransition current.status .analyze)
  (Ordered.ofList (impacts.map (·.contributor))).forM fun user =>
    publish user .parserComplete request.id
  publish request.author .parserComplete request.id
  let status ← reEvaluate request.id
  pure
    { status
      changedSymbols := changed
      affectedComponents := reached
      impacts := impacts.length
      enrichment := setup.assistant.map fun _ => enrichmentOf request drafted affected }

/-- The findings in some files, or all of them when none is there. -/
def findingsIn (findings : List Finding) (paths : List String) : List Finding :=
  let found := findings.filter fun f => paths.contains f.file
  if found.isEmpty then findings else found

/-- Have a language model comment on the impacts of a request and tell the author whether
it did. Answers with the number of findings. -/
def enrichRequest (setup : Setup) (job : EnrichmentJob) : Operation Nat := do
  match setup.assistant with
  | none => pure 0
  | some assistant =>
    let findings := Finding.ask assistant job.diff job.affectedFiles
    if findings.isEmpty then
      publish job.author .assistantFailed job.change
      pure 0
    else
      let impacts ← read (·.impactsOf job.change)
      impacts.forM fun i => do
        let files ← read (·.filesIn i.component)
        let comment := findingsIn findings (files.map (·.path))
        write fun s => .ok (s.annotate i.id (.array (comment.map Finding.toJson)))
      publish job.author .assistantComplete job.change
      pure findings.length

end ChangeImpact
