import ChangeImpact.Proofs.Store.Commands
import ChangeImpact.Proofs.Store.Content
import ChangeImpact.Proofs.Store.Edges
import ChangeImpact.Proofs.Workflow.Dossier

/-!
# Where the edges of a project come from

Whatever commands were given, the edges that a language model found are the sums of all that
were added, and no replacement of what the parser found touches them. The edges of the parser
are the sums of the graph that was stored last and of what was added since.
-/

namespace ChangeImpact

open DependencyEdge (Accumulates accumulates_nil accumulates_self)
open Script

namespace Command

variable {project : String} {method : DetectionMethod} {written : List DependencyEdge}
  {external : List ExternalDependency} {c : Command} {commands : List Command}

/-- The edge that a command adds to those of a project that are found in a given way. -/
def added? (project : String) (method : DetectionMethod) : Command → Option DependencyEdge
  | upsertEdge p e => if p = project ∧ e.method = method then some e else none
  | _ => none

/-- Whether a command replaces what the parser found in a project. -/
def replaces (project : String) : Command → Bool
  | replaceGraph p _ => p = project
  | _ => false

/-- Whether a command writes to the graph. -/
def writesGraph : Command → Bool
  | upsertEdge .. | replaceGraph .. => true
  | _ => false

/-- The edges that those of a project found in a given way are the sums of, after a further
command. -/
def sources (project : String) (method : DetectionMethod) (written : List DependencyEdge) :
    Command → List DependencyEdge
  | upsertEdge p e => if p = project ∧ e.method = method then written ++ [e] else written
  | replaceGraph p g => if p = project ∧ method = .parser then g.parsedEdges else written
  | _ => written

/-- The imports that lead out of a project after a further command. -/
def leads (project : String) (external : List ExternalDependency) :
    Command → List ExternalDependency
  | replaceGraph p g => if p = project then g.external else external
  | _ => external

theorem sources_of_not_replaces (h : method = .parser → c.replaces project = false) :
    sources project method written c = written ++ (c.added? project method).toList := by
  cases c with
  | upsertEdge p e =>
    rw [sources, added?]
    by_cases hp : p = project ∧ e.method = method
    · rw [if_pos hp, if_pos hp]
      rfl
    · rw [if_neg hp, if_neg hp]
      exact (List.append_nil _).symm
  | replaceGraph p g =>
    have hne : ¬(p = project ∧ method = .parser) := fun hp =>
      absurd hp.1 (of_decide_eq_false (h hp.2))
    exact (if_neg hne).trans (List.append_nil _).symm
  | _ => exact (List.append_nil _).symm

/-- Without a replacement all edges that are added count. -/
theorem foldl_sources (h : method = .parser → ∀ c ∈ commands, c.replaces project = false) :
    commands.foldl (sources project method) written =
      written ++ commands.filterMap (·.added? project method) := by
  induction commands generalizing written with
  | nil => exact (List.append_nil _).symm
  | cons c commands ih =>
    have hfirst : sources project method written c =
        written ++ (c.added? project method).toList :=
      sources_of_not_replaces fun hm => h hm c List.mem_cons_self
    rw [List.foldl_cons, hfirst, ih fun hm d hd => h hm d (List.mem_cons_of_mem _ hd),
      List.append_assoc]
    cases hc : c.added? project method with
    | none => rw [List.filterMap_cons_none hc]; rfl
    | some e => rw [List.filterMap_cons_some hc]; rfl

theorem sources_of_not_writesGraph (h : c.writesGraph = false) :
    sources project method written c = written := by
  cases c with
  | upsertEdge => cases h
  | replaceGraph => cases h
  | _ => rfl

theorem replaces_of_not_writesGraph (h : c.writesGraph = false) : c.replaces project = false := by
  cases c with
  | replaceGraph => cases h
  | _ => rfl

theorem leads_of_not_replaces (h : c.replaces project = false) :
    leads project external c = external := by
  cases c with
  | replaceGraph p g => exact if_neg (of_decide_eq_false h)
  | _ => rfl

/-- Without a replacement the imports that lead out stay. -/
theorem foldl_leads (h : ∀ c ∈ commands, c.replaces project = false) :
    commands.foldl (leads project) external = external := by
  induction commands with
  | nil => rfl
  | cons c commands ih =>
    rw [List.foldl_cons, leads_of_not_replaces (h c List.mem_cons_self)]
    exact ih fun d hd => h d (List.mem_cons_of_mem _ hd)

end Command

namespace Store

variable {s t : Store} {project : String} {method : DetectionMethod}
  {written : List DependencyEdge} {done : List Command} {c : Command} {answer : c.Answer}

/-! ## Steps -/

/-- The edges and the imports that lead out are the same. -/
structure SameGraph (s t : Store) : Prop where
  edges : t.edges = s.edges
  external : t.external = s.external

theorem SameGraph.foundBy (h : SameGraph s t) (project : String) (method : DetectionMethod) :
    t.foundBy project method = s.foundBy project method := by
  rw [Store.foundBy, h.edges, Store.foundBy]

theorem SameGraph.leadingOut (h : SameGraph s t) (project : String) :
    t.leadingOut project = s.leadingOut project := by
  rw [Store.leadingOut, h.external, Store.leadingOut]

/-- A command that does not write to the graph leaves it alone. -/
theorem sameGraph_effect (hc : c.writesGraph = false) (h : c.effect s = .ok (answer, t)) :
    SameGraph s t := by
  cases c with
  | upsertEdge => cases hc
  | replaceGraph => cases hc
  | read q =>
    obtain ⟨_, -, h⟩ := bind_eq_ok.mp h
    cases h
    exact ⟨rfl, rfl⟩
  | insertProject p =>
    obtain ⟨-, h⟩ := demand_bind_ok.mp (silently_eq_ok.mp h)
    cases h
    exact ⟨rfl, rfl⟩
  | insertComponent c =>
    obtain ⟨-, h⟩ := demand_bind_ok.mp (silently_eq_ok.mp h)
    obtain ⟨-, h⟩ := demand_bind_ok.mp h
    obtain ⟨-, h⟩ := demand_bind_ok.mp h
    cases h
    exact ⟨rfl, rfl⟩
  | setComponentStatus ids status =>
    cases silently_eq_ok.mp h
    exact ⟨rfl, rfl⟩
  | addContributor c =>
    have h := silently_eq_ok.mp h
    rw [addContributor] at h
    split at h
    · cases h
      exact ⟨rfl, rfl⟩
    · obtain ⟨-, h⟩ := demand_bind_ok.mp h
      cases h
      exact ⟨rfl, rfl⟩
  | upsertFile f =>
    rw [eq_of_upsertFile h]
    exact ⟨rfl, rfl⟩
  | setSymbols id symbols =>
    obtain ⟨-, h⟩ := demand_bind_ok.mp (silently_eq_ok.mp h)
    cases h
    exact ⟨rfl, rfl⟩
  | insertDraft d =>
    obtain ⟨-, h⟩ := demand_bind_ok.mp (silently_eq_ok.mp h)
    obtain ⟨-, h⟩ := demand_bind_ok.mp h
    cases h
    exact ⟨rfl, rfl⟩
  | insertRequest r =>
    obtain ⟨-, h⟩ := demand_bind_ok.mp (silently_eq_ok.mp h)
    obtain ⟨-, h⟩ := demand_bind_ok.mp h
    cases h
    exact ⟨rfl, rfl⟩
  | setStatus id status now =>
    obtain ⟨-, h⟩ := demand_bind_ok.mp (silently_eq_ok.mp h)
    cases h
    exact ⟨rfl, rfl⟩
  | insertImpacts is =>
    rw [eq_of_insertImpacts (silently_eq_ok.mp h)]
    exact ⟨rfl, rfl⟩
  | commitAnalysis id is flagged now =>
    have h : s.commitAnalysis id is flagged now = .ok (answer, t) := h
    rw [commitAnalysis] at h
    split at h
    · obtain ⟨u, hu, h⟩ := bind_eq_ok.mp h
      cases h
      rw [eq_of_insertImpacts hu]
      exact ⟨rfl, rfl⟩
    · cases h
      exact ⟨rfl, rfl⟩
  | acknowledge id time auto =>
    cases h
    exact ⟨rfl, rfl⟩
  | dismiss id time =>
    cases h
    exact ⟨rfl, rfl⟩
  | annotate id comment =>
    cases silently_eq_ok.mp h
    exact ⟨rfl, rfl⟩
  | commitApproval c snapshot =>
    obtain ⟨_, _, rfl⟩ := eq_of_commitApproval (silently_eq_ok.mp h)
    exact ⟨promoteAll_eq (f := Store.edges) (fun _ _ => rfl) c.promoted s,
      promoteAll_eq (f := Store.external) (fun _ _ => rfl) c.promoted s⟩
  | commitRejection id stabilize resolvedAt =>
    cases silently_eq_ok.mp h
    exact ⟨rfl, rfl⟩

/-- A command takes the sums that a project's edges are to those of what it adds or stores. -/
theorem Intact.accumulates_effect (hs : s.Intact)
    (ha : Accumulates written (s.foundBy project method)) (h : c.effect s = .ok (answer, t)) :
    Accumulates (Command.sources project method written c) (t.foundBy project method) := by
  cases hc : c.writesGraph with
  | false =>
    rwa [Command.sources_of_not_writesGraph hc, (sameGraph_effect hc h).foundBy]
  | true =>
    have ht : t.Intact := (Command.grows_effect h).intact hs
    cases c with
    | upsertEdge p e =>
      have h := silently_eq_ok.mp h
      by_cases hp : p = project ∧ e.method = method
      · obtain ⟨rfl, rfl⟩ := hp
        rw [Command.sources, if_pos ⟨rfl, rfl⟩]
        exact accumulates_upsertEdge ha h
      · rwa [Command.sources, if_neg hp, foundBy_upsertEdge_of_ne h hp]
    | replaceGraph p g =>
      cases eq_of_replaceGraph (silently_eq_ok.mp h)
      by_cases hp : p = project ∧ method = .parser
      · obtain ⟨rfl, rfl⟩ := hp
        have hnodup := ht.nodup_foundBy p .parser
        rw [foundBy_withGraph] at hnodup ⊢
        rw [Command.sources, if_pos ⟨rfl, rfl⟩]
        exact accumulates_self hnodup
      · rwa [Command.sources, if_neg hp, foundBy_withGraph_of_ne hp]
    | _ => cases hc

theorem leadingOut_effect (h : c.effect s = .ok (answer, t)) :
    t.leadingOut project = Command.leads project (s.leadingOut project) c := by
  cases hc : c.writesGraph with
  | false =>
    rw [(sameGraph_effect hc h).leadingOut,
      Command.leads_of_not_replaces (Command.replaces_of_not_writesGraph hc)]
  | true =>
    cases c with
    | upsertEdge p e =>
      rcases upsertEdge_cases (silently_eq_ok.mp h) with ⟨-, rfl⟩ | ⟨-, rfl⟩
      · rfl
      · rfl
    | replaceGraph p g =>
      cases eq_of_replaceGraph (silently_eq_ok.mp h)
      by_cases hp : p = project
      · subst hp
        rw [leadingOut_withGraph, Command.leads, if_pos rfl]
      · rw [leadingOut_withGraph_of_ne hp, Command.leads, if_neg hp]
    | _ => cases hc

/-! ## Histories -/

/-- The graph of every project comes from some commands. -/
structure Stems (done : List Command) (s : Store) : Prop where
  edges : ∀ project method,
    Accumulates (done.foldl (Command.sources project method) []) (s.foundBy project method)
  external : ∀ project, s.leadingOut project = done.foldl (Command.leads project) []

theorem stems_empty : Stems [] {} where
  edges := fun _ _ => accumulates_nil
  external := fun _ => rfl

/-- A command that is accepted takes its place after the others. -/
theorem Intact.stems_effect (hs : s.Intact) (hd : Stems done s)
    (h : c.effect s = .ok (answer, t)) : Stems (done ++ [c]) t where
  edges := fun project method => by
    rw [List.foldl_append]
    exact hs.accumulates_effect (hd.edges project method) h
  external := fun project => by
    rw [List.foldl_append, leadingOut_effect h, hd.external]
    rfl

/-- What the graph of a project says about the commands that were accepted. -/
structure Remembers (s : Store) (project : String) (done : List Command) : Prop where
  /-- The edges of the model are the sums of all that were added. -/
  llm : Accumulates (done.filterMap (·.added? project .llm)) (s.foundBy project .llm)
  /-- The edges of the parser are the sums of the graph that was stored last and of what was
  added since. -/
  parser : ∀ before g since, done = before ++ .replaceGraph project g :: since →
    (∀ c ∈ since, c.replaces project = false) →
    Accumulates (g.parsedEdges ++ since.filterMap (·.added? project .parser))
      (s.foundBy project .parser)
  /-- The imports that lead out are those of the graph that was stored last. -/
  external : ∀ before g since, done = before ++ .replaceGraph project g :: since →
    (∀ c ∈ since, c.replaces project = false) → s.leadingOut project = g.external
  /-- If no graph was stored, only what was added counts, and nothing leads out. -/
  unreplaced : (∀ c ∈ done, c.replaces project = false) →
    Accumulates (done.filterMap (·.added? project .parser)) (s.foundBy project .parser) ∧
      s.leadingOut project = []
  /-- The edges are read as they are stored. -/
  read : ∀ method,
    ((s.edgesOf project).filter (·.method = method)).Perm (s.foundBy project method)
  /-- So are the imports that lead out. -/
  readExternal : (s.externalOf project).Perm (s.leadingOut project)

theorem Stems.remembers (h : Stems done s) (project : String) : s.Remembers project done where
  llm := by
    have hllm := h.edges project .llm
    rwa [Command.foldl_sources fun hm : DetectionMethod.llm = .parser => nomatch hm] at hllm
  parser := by
    rintro before g since rfl hsince
    have hparser := h.edges project .parser
    rwa [List.foldl_append, List.foldl_cons, Command.sources, if_pos ⟨rfl, rfl⟩,
      Command.foldl_sources fun _ => hsince] at hparser
  external := by
    rintro before g since rfl hsince
    rw [h.external, List.foldl_append, List.foldl_cons, Command.foldl_leads hsince, Command.leads,
      if_pos rfl]
  unreplaced := fun hdone => by
    have hparser := h.edges project .parser
    rw [Command.foldl_sources fun _ => hdone] at hparser
    exact ⟨hparser, (h.external project).trans (Command.foldl_leads hdone)⟩
  read := perm_edgesOf s project
  readExternal := perm_externalOf s project

/-- Replacing what the parser found, in whatever project, does not touch the edges of the
model. -/
theorem Intact.foundBy_llm_replaceGraph (h : s.Intact) (p : String) (g : DependencyGraph)
    (project : String) :
    ((Command.replaceGraph p g).script.run s).2.foundBy project .llm =
      s.foundBy project .llm := by
  cases he : s.replaceGraph p g with
  | error e => rw [h.run_of_error (c := .replaceGraph p g) (silently_of_error he)]
  | ok t =>
    rw [h.run_of_ok (c := .replaceGraph p g) (silently_of_ok he), eq_of_replaceGraph he]
    exact foundBy_withGraph_of_ne fun hp => nomatch hp.2

/-- The graph of the files of a project can always be stored, and then it is what the parser
found. -/
theorem Intact.run_replaceGraph_build (h : s.Intact) (hp : s.hasProject project = true) :
    let g := DependencyGraph.build (s.indexed project)
    let stored := (Command.replaceGraph project g).script.run s
    stored.1.isOk = true ∧ stored.2.foundBy project .parser = g.edges ∧
      stored.2.leadingOut project = g.external := by
  have hrun := h.run_of_ok (c := .replaceGraph project (.build (s.indexed project)))
    (silently_of_ok (replaceGraph_build h.toConsistent hp))
  intro g stored
  have hstored : stored = (.ok (), s.withGraph project g) := hrun
  rw [hstored, ← DependencyGraph.parsedEdges_build]
  exact ⟨rfl, foundBy_withGraph s project g, leadingOut_withGraph s project g⟩

/-- An edge is accepted exactly when its ends differ and what it refers to is there. -/
theorem Intact.upsertEdge_isOk_iff (h : s.Intact) (project : String) (e : DependencyEdge) :
    ((Command.upsertEdge project e).script.run s).1.isOk = true ↔
      e.source ≠ e.target ∧ s.hasProject project = true ∧ s.hasComponent e.source = true ∧
        s.hasComponent e.target = true := by
  rw [← h.exists_upsertEdge_iff]
  cases he : s.upsertEdge project e with
  | error failure =>
    rw [h.run_of_error (c := .upsertEdge project e) (silently_of_error he)]
    exact iff_of_false Bool.false_ne_true fun ⟨_, hok⟩ => nomatch hok
  | ok t =>
    rw [h.run_of_ok (c := .upsertEdge project e) (silently_of_ok he)]
    exact iff_of_true rfl ⟨t, rfl⟩

/-- An edge that leads back to its source is refused and changes nothing. -/
theorem run_upsertEdge_of_eq {e : DependencyEdge} (he : e.source = e.target) (project : String)
    (s : Store) :
    (Command.upsertEdge project e).script.run s =
      (.error (.index ("self edge on component " ++ e.source)), s) := by
  rw [Command.script, writeEdge, if_pos he]
  rfl

/-- A graph of a project with two components. -/
def sampleGraph : DependencyGraph where
  edges := [{ source := "a", target := "b", symbols := ["y"] }]
  external := [⟨"a/main.ts", "react", 1⟩]

/-- An edge that a model found before the graph was stored, one that it found afterwards, and
one of the parser, after an edge that is refused. -/
def sampleWrites : List Command :=
  [.insertProject { id := "p", name := "P", owner := "o", strictness := .visibility },
   .insertComponent { id := "a", project := "p", name := "A", status := .stable },
   .insertComponent { id := "b", project := "p", name := "B", status := .stable },
   .upsertEdge "p" { source := "a", target := "b", method := .llm, confidence := 0.5,
                     symbols := ["z"] },
   .replaceGraph "p" sampleGraph,
   .upsertEdge "p" { source := "a", target := "a" },
   .upsertEdge "p" { source := "a", target := "b", method := .llm, confidence := 0.75,
                     symbols := ["x"] },
   .upsertEdge "p" { source := "a", target := "b", symbols := ["w"] }]

end Store

end ChangeImpact
