import ChangeImpact.Proofs.Workflow.Dossier
import ChangeImpact.Workflow.World
import Mathlib.Data.String.Basic

/-!
# Who is told about a request

The events that go with a change request are meant for its author and for the
contributors of its impacts. A dossier has an audience for every notice, and news
are the events by which that audience is told.
-/

namespace ChangeImpact

/-- The users who hear something about a subject from events, in order. -/
def heard (notice : Notice) (subject : String) (events : List Event) : List String :=
  (events.filter fun e => e.notice = notice ∧ e.subject = subject).map (·.user)

section Heard

variable {notice : Notice} {subject : String}

theorem heard_append (es es' : List Event) :
    heard notice subject (es ++ es') = heard notice subject es ++ heard notice subject es' := by
  rw [heard, List.filter_append, List.map_append]
  rfl

theorem heard_of_ne {es : List Event}
    (h : ∀ e ∈ es, e.notice = notice → e.subject ≠ subject) : heard notice subject es = [] := by
  rw [heard, List.map_eq_nil_iff, List.filter_eq_nil_iff]
  intro e he
  simpa using h e he

/-- Telling users one thing tells them that and nothing else. -/
theorem heard_map (users : List String) :
    heard notice subject (users.map (⟨·, notice, subject⟩)) = users := by
  rw [heard, List.filter_eq_self.mpr, List.map_map]
  · exact List.map_id _
  · intro e he
    obtain ⟨user, -, rfl⟩ := List.mem_map.mp he
    simp

end Heard

namespace Notice

/-- The notices about a change request that go with its status. -/
def isMilestone : Notice → Bool
  | parserComplete | pendingReview | approved | rejected => true
  | filesReady | assistantComplete | assistantFailed => false

end Notice

namespace Dossier

/-- The contributors of the impacts, in the order in which impacts are listed. -/
def contributors (d : Dossier) : List String :=
  (Ordered.sortBy
    (fun a b => !decide ([b.component, b.contributor] < [a.component, a.contributor]))
    d.impacts).map (·.contributor)

/-- Whom a notice about the request is for. -/
def audience (d : Dossier) : Notice → List String
  | .parserComplete => Ordered.ofList (d.impacts.map (·.contributor)) ++ [d.request.author]
  | .pendingReview => [d.request.author]
  | .approved | .rejected =>
    d.request.author :: (Ordered.distinct d.contributors).filter (· ≠ d.request.author)
  | .filesReady | .assistantComplete | .assistantFailed => []

/-- The events by which they are told. -/
def news (notice : Notice) (d : Dossier) : List Event :=
  (d.audience notice).map (⟨·, notice, d.request.id⟩)

variable {d d' : Dossier}

theorem mem_contributors {user : String} :
    user ∈ d.contributors ↔ ∃ i ∈ d.impacts, i.contributor = user := by
  simp [contributors]

/-- What was found matters for the contributors, and nothing else. -/
theorem contributors_eq : d.contributors =
    (Ordered.sortBy (fun a b => !decide ([b.1, b.2] < [a.1, a.2]))
      (d.impacts.map fun i => (i.component, i.contributor))).map (·.2) := by
  rw [contributors, Ordered.sortBy, Ordered.sortBy,
    ← List.map_mergeSort (f := fun i : Impact => (i.component, i.contributor))
      (r := fun a b => !decide ([b.component, b.contributor] < [a.component, a.contributor]))
      fun _ _ _ _ => rfl, List.map_map]
  rfl

/-- Two dossiers of one author with impacts on the same people have the same audience. -/
theorem audience_congr (hauthor : d'.request.author = d.request.author)
    (himpacts : d'.impacts.map (fun i => (i.component, i.contributor)) =
      d.impacts.map fun i => (i.component, i.contributor)) (notice : Notice) :
    d'.audience notice = d.audience notice := by
  have hcontributors : d'.contributors = d.contributors := by
    rw [contributors_eq, contributors_eq, himpacts]
  have hmap (e : Dossier) : e.impacts.map (·.contributor) =
      (e.impacts.map fun i => (i.component, i.contributor)).map (·.2) := by
    rw [List.map_map]
    rfl
  cases notice <;> simp only [audience, hauthor, hcontributors, hmap, himpacts]

/-- Every audience but one is without repetition. -/
theorem nodup_audience {notice : Notice} (h : notice ≠ .parserComplete) :
    (d.audience notice).Nodup := by
  have hdecision : (d.request.author ::
      (Ordered.distinct d.contributors).filter (· ≠ d.request.author)).Nodup := by
    rw [List.nodup_cons]
    exact ⟨by simp, (Ordered.nodup_distinct _).filter _⟩
  cases notice with
  | parserComplete => exact absurd rfl h
  | pendingReview => exact List.nodup_singleton _
  | approved | rejected => exact hdecision
  | filesReady | assistantComplete | assistantFailed => exact List.nodup_nil

/-- Of the completed analysis an author who also has an impact hears twice, and everybody else
at most once. -/
theorem count_audience_parserComplete (user : String) :
    (d.audience .parserComplete).count user =
      (if ∃ i ∈ d.impacts, i.contributor = user then 1 else 0) +
        if user = d.request.author then 1 else 0 := by
  have hmem : user ∈ Ordered.ofList (d.impacts.map (·.contributor)) ↔
      ∃ i ∈ d.impacts, i.contributor = user := by
    rw [Ordered.mem_ofList, List.mem_map]
  rw [audience, List.count_append, Ordered.nodup_ofList.count, List.count_singleton]
  simp only [hmem, beq_iff_eq, eq_comm (a := d.request.author)]

/-- The news are for the audience. -/
theorem heard_news (notice : Notice) (d : Dossier) :
    heard notice d.request.id (d.news notice) = d.audience notice := heard_map _

theorem heard_news_of_ne {notice notice' : Notice} {subject : String}
    (h : notice' = notice → d.request.id ≠ subject) : heard notice subject (d.news notice') = [] := by
  refine heard_of_ne fun e he heq => ?_
  obtain ⟨user, -, rfl⟩ := List.mem_map.mp he
  exact h heq

end Dossier

namespace Store

variable {s t : Store}

/-- The dossier of an identifier. -/
def dossier? (s : Store) (id : String) : Option Dossier :=
  s.dossiers.find? (·.request.id = id)

/-- The status of the request of an identifier. -/
def status? (s : Store) (id : String) : Option ChangeStatus :=
  (s.dossier? id).map (·.request.status)

/-- Whom a notice about the request of an identifier is for. -/
def audience (s : Store) (notice : Notice) (id : String) : List String :=
  ((s.dossier? id).map (·.audience notice)).getD []

theorem dossier?_eq (s : Store) (id : String) :
    s.dossier? id = (s.requests.find? (·.id = id)).map s.dossier := by
  rw [dossier?, dossiers, List.find?_map]
  rfl

theorem status?_eq (s : Store) (id : String) :
    s.status? id = (s.requests.find? (·.id = id)).map (·.status) := by
  rw [status?, dossier?_eq, Option.map_map]
  rfl

/-- A request that is to be reviewed concerns its author. -/
theorem audience_pendingReview (s : Store) (id : String) : s.audience .pendingReview id =
    ((s.requests.find? (·.id = id)).map fun r => [r.author]).getD [] := by
  rw [audience, dossier?_eq, Option.map_map]
  rfl

theorem mem_of_dossier? {id : String} {d : Dossier} (h : s.dossier? id = some d) :
    d ∈ s.dossiers ∧ d.request.id = id :=
  ⟨List.mem_of_find?_eq_some h, by simpa using List.find?_some h⟩

theorem dossier?_of_mem (hk : Keyed (·.id) s.requests) {d : Dossier} (hd : d ∈ s.dossiers) :
    s.dossier? d.request.id = some d := by
  have hkeyed : Keyed (·.request.id) s.dossiers := by
    rw [Keyed, ← map_request_dossiers, List.map_map] at hk
    exact hk
  exact hkeyed.find?_eq_some_iff.mpr ⟨hd, rfl⟩

theorem dossier?_eq_none_iff {id : String} :
    s.dossier? id = none ↔ ∀ r ∈ s.requests, r.id ≠ id := by
  rw [dossier?, List.find?_eq_none, ← map_request_dossiers]
  simp only [List.forall_mem_map, decide_eq_true_eq]

/-- What acts on the dossier of one identifier acts on it when it is found. -/
theorem dossier?_map {id : String} {g : Dossier → Dossier}
    (h : t.dossiers = s.dossiers.map fun d => if d.request.id = id then g d else d)
    (hg : ∀ d, (g d).request.id = d.request.id) (id' : String) :
    t.dossier? id' = if id' = id then (s.dossier? id').map g else s.dossier? id' := by
  have hkeeps (d : Dossier) : (if d.request.id = id then g d else d).request.id = d.request.id := by
    split
    · exact hg d
    · rfl
  rw [dossier?, h, List.find?_map, dossier?]
  simp only [Function.comp_def, hkeeps]
  cases hd : s.dossiers.find? (·.request.id = id') with
  | none => exact (ite_self _).symm
  | some d =>
    have hid : d.request.id = id' := by simpa using List.find?_some hd
    simp only [Option.map_some, hid]
    split <;> rfl

theorem status?_of_dossier? {id : String} {d : Dossier} (h : s.dossier? id = some d) :
    s.status? id = some d.request.status := by
  rw [status?, h]
  rfl

theorem audience_of_dossier? {id : String} {d : Dossier} (h : s.dossier? id = some d)
    (notice : Notice) : s.audience notice id = d.audience notice := by
  rw [audience, h]
  rfl

end Store

end ChangeImpact
