import ChangeImpact.Proofs.Workflow.Agreement
import ChangeImpact.Proofs.Workflow.Flags
import ChangeImpact.Proofs.Workflow.Lifecycle
import ChangeImpact.Proofs.Workflow.News

/-!
# What users are told

Four notices about a change request go with moves of its status: the analysis is done,
the review is due, the request is approved, it is rejected. Every action publishes
exactly the news of the moves that it makes. As a request makes each of these moves at
most once, nobody hears of one twice, but for an author with an impact of their own
request, who hears of the completed analysis in both roles.
-/

namespace ChangeImpact

open Operation

/-! ## Operations that tell nothing of the kind -/

section Publishes

variable {α β : Type} {p : Event → Prop}

/-- Whatever the operation does, the events that it publishes satisfy `p`. -/
def Operation.Publishes (p : Event → Prop) (a : Operation α) : Prop :=
  ∀ w, ∃ new, (exec a w).2.events = w.events ++ new ∧ ∀ e ∈ new, p e

namespace Operation.Publishes

theorem of_events {a : Operation α} (h : ∀ w, (exec a w).2.events = w.events) : Publishes p a :=
  fun w => ⟨[], (h w).trans (List.append_nil _).symm, fun _ he => absurd he List.not_mem_nil⟩

theorem composes : Composes fun _ a => Publishes p a where
  pure _ := of_events fun _ => rfl
  bind {_ _ a f} ha hf := by
    intro w
    obtain ⟨new, hnew, hp⟩ := ha w
    rw [exec_bind]
    cases hx : exec a w with
    | mk result v =>
      rw [hx] at hnew
      cases result with
      | error e => exact ⟨new, hnew, hp⟩
      | ok x =>
        obtain ⟨more, hmore, hq⟩ := hf x v
        refine ⟨new ++ more, ?_, ?_⟩
        · rw [← List.append_assoc, ← hnew]
          exact hmore
        · intro e he
          rcases List.mem_append.mp he with he | he
          · exact hp e he
          · exact hq e he

theorem bind {a : Operation α} {f : α → Operation β} (ha : Publishes p a)
    (hf : ∀ x, Publishes p (f x)) : Publishes p (a >>= f) := composes.bind ha hf

theorem read (q : Store → Except Failure α) : Publishes p (Operation.read q) :=
  of_events fun w => by
    rw [exec_read]
    cases q w.store <;> rfl

theorem need (q : Store → Except Failure (Option α)) (what : String) :
    Publishes p (Operation.need q what) :=
  bind (read q) fun found => of_events fun _ => by cases found <;> rfl

theorem require (c : Bool) (e : Failure) : Publishes p (ChangeImpact.require c e) :=
  of_events fun _ => by cases c <;> rfl

theorem write (g : Store → Except Failure Store) : Publishes p (Operation.write g) :=
  of_events fun w => by
    rw [exec_write]
    cases g w.store <;> rfl

theorem writeWith (g : Store → Except Failure (α × Store)) : Publishes p (Operation.writeWith g) :=
  of_events fun w => by
    rw [exec_writeWith]
    cases g w.store <;> rfl

theorem store (g : Objects → Except Failure Objects) : Publishes p (Operation.store g) :=
  of_events fun w => by
    rw [exec_store]
    cases g w.objects <;> rfl

theorem publish {user : String} {notice : Notice} {subject : String}
    (h : p ⟨user, notice, subject⟩) : Publishes p (Operation.publish user notice subject) :=
  fun _ => ⟨[⟨user, notice, subject⟩], rfl, fun _ he => List.mem_singleton.mp he ▸ h⟩

end Operation.Publishes

end Publishes

/-- The actions that move no request to where people are told of it. -/
def Action.isQuiet : Action → Bool
  | .enter _ | .objects _ | .create .. | .submit .. | .enrich .. | .index _ | .load .. => true
  | _ => false

/-- They are neither approvals nor followed by a look at requests. -/
theorem Action.moves_of_isQuiet {a : Action} (ha : a.isQuiet = true) :
    a.isSettling = false ∧ a.approved? = none := by
  cases a <;> first | exact ⟨rfl, rfl⟩ | cases ha

/-- Such an action tells nobody of a milestone. -/
theorem publishes_quiet (setup : Setup) {a : Action} (ha : a.isQuiet = true) :
    Publishes (fun e => e.notice.isMilestone = false) (a.operation setup) := by
  cases a with
  | enter row => exact .write _
  | objects change => exact .store change
  | create project component author title description submitted =>
    refine .bind (.need _ _) fun _ => .bind (.of_events fun _ => rfl) fun _ => ?_
    refine .bind (.of_events fun _ => rfl) fun _ => .bind (.write _) fun _ => ?_
    exact .of_events fun _ => rfl
  | submit request user =>
    refine .bind (.need _ _) fun _ => .bind (.require _ _) fun _ => .bind (.require _ _) fun _ => ?_
    refine .bind (.of_events fun _ => rfl) fun _ => .bind (.write _) fun _ => ?_
    exact .of_events fun _ => rfl
  | enrich assistant job =>
    show Publishes _ (enrichRequest { setup with assistant } job)
    rw [enrichRequest]
    cases assistant with
    | none => exact .of_events fun _ => rfl
    | some assistant =>
      dsimp only
      split
      · exact .bind (.publish rfl) fun _ => .of_events fun _ => rfl
      · refine .bind (.read _) fun impacts => .bind ?_ fun _ => ?_
        · exact Publishes.composes.forM fun i => .bind (.read _) fun _ => .write _
        · exact .bind (.publish rfl) fun _ => .of_events fun _ => rfl
  | index project =>
    refine .bind (.need _ _) fun p => .bind (.read _) fun files => ?_
    refine .bind (.of_events fun _ => rfl) fun w => ?_
    refine .bind (Publishes.composes.forM fun _ => .write _) fun _ => ?_
    refine .bind (Publishes.composes.forM fun _ => .write _) fun _ => ?_
    refine .bind ?_ fun graph => .bind (.publish rfl) fun _ => .of_events fun _ => rfl
    exact .bind (.read _) fun _ => .bind (.write _) fun _ => .of_events fun _ => rfl
  | load project tree owner =>
    refine .bind (Publishes.composes.forM fun f => ?_) fun _ => .of_events fun _ => rfl
    refine .bind (.store _) fun _ => .bind (.of_events fun _ => rfl) fun _ => ?_
    exact .bind (.writeWith _) fun _ => .of_events fun _ => rfl
  | _ => cases ha

/-! ## Looking at requests again -/

/-- Requests were looked at again: some analysed ones moved on to review, and the author of
each of these was told. -/
structure World.Reviews (w w' : World) : Prop where
  authors : ∀ id, w'.store.audience .pendingReview id = w.store.audience .pendingReview id
  events : ∃ new, w'.events = w.events ++ new ∧ (∀ e ∈ new, e.notice = .pendingReview) ∧
    ∀ id, (w'.store.status? id = w.store.status? id ∧ heard .pendingReview id new = []) ∨
      (w.store.status? id = some .analysisComplete ∧ w'.store.status? id = some .pendingReview ∧
        heard .pendingReview id new = w.store.audience .pendingReview id)

namespace World.Reviews

variable {w u v : World}

/-- Nothing of this happens where no request and no event changes. -/
theorem of_eq (hr : v.store.requests = w.store.requests) (he : v.events = w.events) :
    w.Reviews v where
  authors id := by rw [Store.audience_pendingReview, Store.audience_pendingReview, hr]
  events := by
    refine ⟨[], by rw [he, List.append_nil], fun _ h => absurd h List.not_mem_nil, fun id => ?_⟩
    exact Or.inl ⟨by rw [Store.status?_eq, Store.status?_eq, hr], rfl⟩

theorem refl (w : World) : w.Reviews w := of_eq rfl rfl

/-- A request that has moved on to review stays there. -/
theorem trans (h : w.Reviews u) (h' : u.Reviews v) : w.Reviews v where
  authors id := (h'.authors id).trans (h.authors id)
  events := by
    obtain ⟨new, hnew, hp, hstatus⟩ := h.events
    obtain ⟨new', hnew', hp', hstatus'⟩ := h'.events
    refine ⟨new ++ new', by rw [hnew', hnew, List.append_assoc], ?_, fun id => ?_⟩
    · intro e he
      rcases List.mem_append.mp he with he | he
      · exact hp e he
      · exact hp' e he
    · rw [heard_append]
      rcases hstatus id with ⟨hsame, hnone⟩ | ⟨hbefore, hafter, hsome⟩
      · rw [hnone, List.nil_append, ← hsame, ← h.authors]
        exact hstatus' id
      · rcases hstatus' id with ⟨hsame', hnone'⟩ | ⟨hbefore', -⟩
        · refine Or.inr ⟨hbefore, hsame'.trans hafter, ?_⟩
          rw [hsome, hnone', List.append_nil]
        · rw [hafter] at hbefore'
          cases hbefore'

end World.Reviews

variable {setup : Setup} {w : World}

theorem Store.dossiers_setStatus {s t : Store} {id : String} {status : ChangeStatus}
    {time : Instant} (h : s.setStatus id status time = .ok t) :
    t.dossiers = s.dossiers.map fun d => if d.request.id = id then d.setStatus status time else d := by
  rw [Store.eq_of_setStatus h]
  exact Store.dossiers_updateRequest fun _ => rfl

/-- A request that is found and set to a status has that status, and all others keep theirs. -/
theorem Store.status?_setStatus {s t : Store} {r : ChangeRequest} {status : ChangeStatus}
    {time : Instant} (hr : s.requests.find? (·.id = r.id) = some r)
    (h : s.setStatus r.id status time = .ok t) (id : String) :
    t.status? id = if id = r.id then some status else s.status? id := by
  rw [Store.status?, Store.dossier?_map (Store.dossiers_setStatus h) fun _ => rfl]
  by_cases hid : id = r.id
  · rw [if_pos hid, if_pos hid, hid, Store.dossier?_eq, hr]
    rfl
  · rw [if_neg hid, if_neg hid, Store.status?]

/-- Giving a request a status does not change its author. -/
theorem Store.audience_pendingReview_setStatus {s t : Store} {id : String} {status : ChangeStatus}
    {time : Instant} (h : s.setStatus id status time = .ok t) (id' : String) :
    t.audience .pendingReview id' = s.audience .pendingReview id' := by
  rw [Store.audience, Store.dossier?_map (Store.dossiers_setStatus h) fun _ => rfl, Store.audience]
  split
  · rw [Option.map_map]
    rfl
  · rfl

theorem reEvaluate_reviews (w : World) (id : String) :
    Yields (reEvaluate id) w w.Reviews fun _ => w.Reviews := by
  refine Yields.need (fun _ => .refl w) fun r hr => ?_
  have hfind := (Store.eq_of_readFirst hr).symm
  obtain ⟨hm, rfl⟩ := Store.mem_of_request? hr
  split
  · exact .refl w
  · rename_i hs
    have hcomplete : r.status = .analysisComplete := not_not.mp hs
    refine Yields.read (fun _ => .refl w) fun is _ => ?_
    split
    · exact .refl w
    · refine Yields.now (Yields.write (.of_eq rfl rfl) fun s hset => Yields.publish ?_)
      have hstatus := Store.status?_setStatus hfind hset
      refine ⟨Store.audience_pendingReview_setStatus hset, _, rfl, ?_, fun id => ?_⟩
      · intro e he
        rw [List.mem_singleton.mp he]
      · by_cases hid : id = r.id
        · subst hid
          refine Or.inr ⟨?_, by rw [hstatus, if_pos rfl], ?_⟩
          · rw [Store.status?_eq, hfind, Option.map_some, hcomplete]
          · rw [Store.audience_pendingReview, hfind]
            exact heard_map [r.author]
        · refine Or.inl ⟨by rw [hstatus, if_neg hid], heard_of_ne fun e he _ => ?_⟩
          rw [List.mem_singleton.mp he]
          exact Ne.symm hid

private theorem resolve_reviews (w : World) (id change : String) (e : Failure)
    (f : Instant → Impact → Impact) :
    Yields (do
      let time ← now
      let done ← writeWith fun s => .ok (s.resolveImpact id (f time))
      require done e
      reEvaluate change) w w.Reviews fun _ => w.Reviews := by
  refine Yields.now (Yields.writeWith (.of_eq rfl rfl) fun done s hs => ?_)
  cases hs
  have hsame : w.Reviews { w with
      clock := ⟨w.clock.nanos + tick⟩, store := (w.store.resolveImpact id (f w.clock)).2 } :=
    .of_eq rfl rfl
  refine Yields.require (fun _ => hsame) fun _ => ?_
  exact (reEvaluate_reviews _ _).imp (fun _ hv => hsame.trans hv) fun _ _ hv => hsame.trans hv

theorem acknowledgeImpact_reviews (w : World) (id user : String) :
    Yields (acknowledgeImpact id user) w w.Reviews fun _ => w.Reviews := by
  refine Yields.need (fun _ => .refl w) fun i _ => ?_
  refine Yields.bind (checkResolvable_yields (.refl w) i user .acknowledge) ?_
  rintro _ w ⟨rfl, -⟩
  exact resolve_reviews w id i.change _ (Impact.acknowledge false)

theorem dismissImpact_reviews (w : World) (id user : String) :
    Yields (dismissImpact id user) w w.Reviews fun _ => w.Reviews := by
  refine Yields.need (fun _ => .refl w) fun i _ => ?_
  refine Yields.bind (checkResolvable_yields (.refl w) i user .dismiss) ?_
  rintro _ w ⟨rfl, -⟩
  exact Yields.require (fun _ => .refl w) fun _ => resolve_reviews w id i.change _ Impact.dismiss

theorem sweep_reviews (w : World) (time : Instant) (threshold : Int) :
    Yields (sweep time threshold) w w.Reviews fun _ => w.Reviews := by
  rw [sweep]
  cases time.before? threshold with
  | none => exact .refl w
  | some cutoff =>
    refine Yields.read (fun _ => .refl w) fun found _ => ?_
    refine Yields.bind (Yields.filterM (I := w.Reviews) (.refl w) fun x _ v hv => ?_)
      fun ys v hv => ?_
    · show Yields (confirm time x.1) v w.Reviews fun _ => w.Reviews
      rw [confirm, Yields, exec_writeWith]
      exact hv.trans (.of_eq rfl rfl)
    · refine Yields.bind (Yields.forM hv fun id _ v hv => ?_) fun _ _ hv => hv
      exact Yields.bind ((reEvaluate_reviews v id).imp (fun _ hu => hv.trans hu)
        fun _ _ hu => hv.trans hu) fun _ _ hu => hu

/-- Every action after which requests are looked at again does so. -/
theorem reviews_settling (setup : Setup) (w : World) {a : Action} (ha : a.isSettling = true) :
    w.Reviews (step setup w a) := by
  cases a with
  | acknowledge impact user =>
    exact (acknowledgeImpact_reviews w impact user).world (fun _ _ _ h => h) fun _ _ _ h => h
  | dismiss impact user =>
    exact (dismissImpact_reviews w impact user).world (fun _ _ _ h => h) fun _ _ _ h => h
  | reEvaluate request =>
    exact (reEvaluate_reviews w request).world (fun _ _ _ h => h) fun _ _ _ h => h
  | sweep time threshold =>
    exact (sweep_reviews w time threshold).world (fun _ _ _ h => h) fun _ _ _ h => h
  | autoconfirm =>
    have hsame : w.Reviews { w with clock := ⟨w.clock.nanos + tick⟩ } := .of_eq rfl rfl
    exact hsame.trans ((sweep_reviews _ w.clock (setup.settings.autoconfirmAfterHours * 3600)).world
      (fun _ _ _ h => h) fun _ _ _ h => h)
  | _ => cases ha

/-! ## Moves and their news -/

/-- The moves of the status of a request that a notice goes with. -/
def Notice.marks : Notice → Option ChangeStatus → Option ChangeStatus → Bool
  | .parserComplete, before, after =>
    before = some .pendingAnalysis &&
      (after = some .analysisComplete || after = some .pendingReview)
  | .pendingReview, before, after => before ≠ some .pendingReview && after = some .pendingReview
  | .approved, before, after => before ≠ some .approved && after = some .approved
  | .rejected, before, after => before ≠ some .rejected && after = some .rejected
  | .filesReady, _, _ | .assistantComplete, _, _ | .assistantFailed, _, _ => false

/-- The notice has been given once a request has this status, if ever. -/
def Notice.isDue : Notice → Option ChangeStatus → Bool
  | .parserComplete, some .analysisComplete | .parserComplete, some .pendingReview
  | .parserComplete, some .approved | .parserComplete, some .rejected
  | .pendingReview, some .pendingReview | .pendingReview, some .approved
  | .pendingReview, some .rejected
  | .approved, some .approved | .rejected, some .rejected => true
  | _, _ => false

/-- The action told exactly the news of the moves that it made: about every request each
notice went to its audience if the request made the move that the notice goes with, and to
nobody otherwise. -/
def World.Announces (w w' : World) : Prop :=
  ∃ new, w'.events = w.events ++ new ∧ ∀ n : Notice, n.isMilestone = true → ∀ id,
    heard n id new =
      if n.marks (w.store.status? id) (w'.store.status? id) then w'.store.audience n id else []

namespace Notice

/-- A request that keeps its status makes no move. -/
theorem marks_self (n : Notice) (s : Option ChangeStatus) : n.marks s s = false := by
  cases n with
  | parserComplete =>
    cases s with
    | none => rfl
    | some s => cases s <;> rfl
  | pendingReview | approved | rejected => simp [marks]
  | filesReady | assistantComplete | assistantFailed => rfl

variable {request : String} {a : Action} {s t : ChangeStatus} {n : Notice}

/-- A move is told when it is made, and not before. -/
theorem not_isDue_of_marks (h : LegalMove request a s t) (hm : n.marks (some s) (some t) = true) :
    n.isDue (some s) = false ∧ n.isDue (some t) = true := by
  cases h with
  | stay =>
    rw [marks_self] at hm
    cases hm
  | submit | analyze | analyzeThrough | review => cases n <;> first | exact ⟨rfl, rfl⟩ | cases hm
  | approve _ ready =>
    rcases ready with rfl | rfl <;> cases n <;> first | exact ⟨rfl, rfl⟩ | cases hm
  | reject => cases n <;> cases s <;> first | exact ⟨rfl, rfl⟩ | cases hm

/-- What was told once is not taken back. -/
theorem isDue_of_legal (h : LegalMove request a s t) (hd : n.isDue (some s) = true) :
    n.isDue (some t) = true := by
  cases h with
  | stay => exact hd
  | submit | analyze | analyzeThrough | review => cases n <;> first | rfl | cases hd
  | approve _ ready => rcases ready with rfl | rfl <;> cases n <;> first | rfl | cases hd
  | reject _ undecided => cases n <;> cases s <;> first | rfl | (cases hd; done) | cases undecided

/-- Quiet actions make no move that goes with a notice. -/
theorem marks_of_isQuiet (ha : a.isQuiet = true) (h : LegalMove request a s t) :
    n.marks (some s) (some t) = false := by
  cases h with
  | stay => exact marks_self n _
  | submit => cases n <;> rfl
  | analyze | analyzeThrough | reject => cases ha
  | review action =>
    rw [(Action.moves_of_isQuiet ha).1] at action
    cases action
  | approve action =>
    rw [(Action.moves_of_isQuiet ha).2] at action
    cases action

end Notice

/-- What an action does to the dossier of an identifier. -/
theorem dossier?_step (setup : Setup) (h : w.store.Intact) (a : Action) (id : String) :
    (∃ d d', w.store.dossier? id = some d ∧ (step setup w a).store.dossier? id = some d' ∧
      Advance (w.store.isStrict d.request.project) a d d') ∨
    (w.store.dossier? id = none ∧
      ∀ d', (step setup w a).store.dossier? id = some d' → d'.IsNew) := by
  have hafter : (step setup w a).store.Intact := (grows_step setup w a).intact h
  cases hd : w.store.dossier? id with
  | some d =>
    obtain ⟨hmem, rfl⟩ := Store.mem_of_dossier? hd
    obtain ⟨hreq, hdossier⟩ := Store.mem_dossiers.mp hmem
    obtain ⟨d', hd', hadv⟩ := exists_advance setup h a hreq
    rw [hdossier] at hadv
    refine Or.inl ⟨d, d', rfl, ?_, hadv⟩
    rw [← hadv.request.id]
    exact Store.dossier?_of_mem hafter.requestIds hd'
  | none =>
    refine Or.inr ⟨rfl, fun d' hd' => ?_⟩
    obtain ⟨hmem, hid⟩ := Store.mem_of_dossier? hd'
    obtain ⟨hreq, hdossier⟩ := Store.mem_dossiers.mp hmem
    rcases advance_origin setup h a hreq with ⟨r, hr, hadv⟩ | hnew
    · have hsame : d'.request.id = r.id := hadv.request.id
      exact absurd (hsame.symm.trans hid) (Store.dossier?_eq_none_iff.mp hd r hr)
    · rwa [hdossier] at hnew

/-- A request that is new has made no move yet. -/
theorem marks_of_isNew {d : Dossier} (h : d.IsNew) (n : Notice) :
    n.marks none (some d.request.status) = false ∧ n.isDue (some d.request.status) = false := by
  rcases h.status with hs | hs <;> rw [hs] <;> cases n <;> exact ⟨rfl, rfl⟩

/-- The move of the request of an identifier. -/
theorem status?_step (setup : Setup) (h : w.store.Intact) (a : Action) (id : String) :
    (∃ s t, w.store.status? id = some s ∧ (step setup w a).store.status? id = some t ∧
      LegalMove id a s t) ∨
    (w.store.status? id = none ∧ ∀ n : Notice,
      n.marks (w.store.status? id) ((step setup w a).store.status? id) = false) := by
  rcases dossier?_step setup h a id with ⟨d, d', hd, hd', hadv⟩ | ⟨hd, hnew⟩
  · refine Or.inl ⟨_, _, Store.status?_of_dossier? hd, Store.status?_of_dossier? hd', ?_⟩
    rw [← (Store.mem_of_dossier? hd).2]
    exact hadv.legal
  · have hnone : w.store.status? id = none := by rw [Store.status?, hd]; rfl
    refine Or.inr ⟨hnone, fun n => ?_⟩
    rw [hnone]
    cases hd' : (step setup w a).store.dossier? id with
    | none =>
      rw [Store.status?, hd']
      exact Notice.marks_self n none
    | some d' =>
      rw [Store.status?_of_dossier? hd']
      exact (marks_of_isNew (hnew d' hd') n).1

/-! ## What each action tells -/

/-- Where nothing is told and no status changes, everything was announced. -/
theorem World.Announces.of_eq {w' : World} (hs : w'.store = w.store) (he : w'.events = w.events) :
    w.Announces w' := by
  refine ⟨[], by rw [he, List.append_nil], fun n _ id => ?_⟩
  rw [hs, Notice.marks_self]
  rfl

theorem announces_quiet (setup : Setup) (h : w.store.Intact) {a : Action} (ha : a.isQuiet = true) :
    w.Announces (step setup w a) := by
  obtain ⟨new, hnew, hp⟩ := publishes_quiet setup ha w
  refine ⟨new, hnew, fun n hn id => ?_⟩
  have hnone : heard n id new = [] := by
    apply heard_of_ne
    intro e he heq
    rw [← heq, hp e he] at hn
    cases hn
  rw [hnone]
  rcases status?_step setup h a id with ⟨s, t, hs, ht, hlegal⟩ | ⟨-, hmarks⟩
  · rw [hs, ht, Notice.marks_of_isQuiet ha hlegal]
    rfl
  · rw [hmarks n]
    rfl

/-- Looking at requests again tells the authors of those that move on. -/
theorem World.Reviews.announces {w' : World} (h : w.Reviews w') : w.Announces w' := by
  obtain ⟨new, hnew, hp, hstatus⟩ := h.events
  refine ⟨new, hnew, fun n hn id => ?_⟩
  have hother (hne : n ≠ .pendingReview) : heard n id new = [] := by
    apply heard_of_ne
    intro e he heq
    exact absurd (heq.symm.trans (hp e he)) hne
  rcases hstatus id with ⟨hsame, hnone⟩ | ⟨hbefore, hafter, hsome⟩
  · rw [hsame, Notice.marks_self]
    by_cases hne : n = .pendingReview
    · rw [hne]
      exact hnone
    · exact hother hne
  · rw [hbefore, hafter]
    by_cases hne : n = .pendingReview
    · subst hne
      rw [hsome, ← h.authors id]
      rfl
    · rw [hother hne]
      cases n <;> first | rfl | exact absurd rfl hne

/-- A decision tells the author and the contributors of the request that it closes. -/
theorem announces_close {w' : World} {r : ChangeRequest} (hk : Store.Keyed (·.id) w.store.requests)
    (hr : r ∈ w.store.requests) (ht : r.status.isTerminal = false) {status : ChangeStatus}
    {notice : Notice} (hdecision : notice = .approved ∧ status = .approved ∨
      notice = .rejected ∧ status = .rejected)
    (hd : ∃ time, w'.store.dossiers = w.store.dossiers.map fun d =>
      if d.request.id = r.id then d.close status time else d)
    (he : w'.events = w.events ++ (w.store.dossier r).news notice) : w.Announces w' := by
  obtain ⟨time, hd⟩ := hd
  have hfind := Store.dossier?_map hd fun _ => rfl
  have hfound : w.store.dossier? r.id = some (w.store.dossier r) :=
    Store.dossier?_of_mem (d := w.store.dossier r) hk (List.mem_map_of_mem hr)
  refine ⟨_, he, fun n hn id => ?_⟩
  by_cases hid : id = r.id
  · subst hid
    have hafter : w'.store.dossier? r.id = some ((w.store.dossier r).close status time) := by
      rw [hfind, if_pos rfl, hfound]
      rfl
    have haudience : ((w.store.dossier r).close status time).audience n =
        (w.store.dossier r).audience n := Dossier.audience_congr rfl rfl n
    have hbefore : w.store.status? r.id = some r.status := Store.status?_of_dossier? hfound
    have hclosed : w'.store.status? r.id = some status := Store.status?_of_dossier? hafter
    rw [hbefore, hclosed, Store.audience_of_dossier? hafter, haudience]
    by_cases hnotice : n = notice
    · subst hnotice
      have hmarks : n.marks (some r.status) (some status) = true := by
        rcases hdecision with ⟨rfl, rfl⟩ | ⟨rfl, rfl⟩ <;> cases hs : r.status <;>
          first | rfl | (rw [hs] at ht; cases ht)
      rw [hmarks]
      exact Dossier.heard_news n (w.store.dossier r)
    · have hmarks : n.marks (some r.status) (some status) = false := by
        rcases hdecision with ⟨rfl, rfl⟩ | ⟨rfl, rfl⟩ <;> cases n <;>
          first | (cases hn; done) | exact absurd rfl hnotice | simp [Notice.marks]
      rw [hmarks]
      exact Dossier.heard_news_of_ne fun heq => absurd heq.symm hnotice
  · have hafter : w'.store.status? id = w.store.status? id := by
      rw [Store.status?, hfind, if_neg hid, Store.status?]
    rw [hafter, Notice.marks_self]
    exact Dossier.heard_news_of_ne fun _ => Ne.symm hid

/-- Looking at a request again changes no audience. -/
theorem Store.audience_review {s : Store} (hk : Store.Keyed (·.id) s.requests) (id : String)
    (time : Instant) (n : Notice) (id' : String) :
    (s.review id time).audience n id' = s.audience n id' := by
  have hreview (d : Dossier) : (d.review time).audience n = d.audience n := by
    rw [Dossier.review]
    split
    · exact Dossier.audience_congr rfl rfl n
    · rfl
  rw [Store.audience, Store.dossier?_map (Store.dossiers_review hk id time)
    fun _ => Dossier.review_id time, Store.audience]
  split
  · rw [Option.map_map, Function.comp_def]
    simp only [hreview]
  · rfl

/-- An analysis tells the contributors of the impacts that it stores, and the author; then the
request may move on to review. -/
theorem announces_analyze (setup : Setup) (h : w.store.Intact) (hagree : w.store.AllAgree)
    (request : String) : w.Announces (step setup w (.analyze request)) := by
  refine Yields.world (R := w.Announces) (a := analyzeRequest setup request)
    (analyzeRequest_yields setup request h.requestIds (fun _ hv => hv) (Or.inl h))
    (fun _ _ _ hv => .of_eq hv.store hv.events) ?_
  rintro report w' - ⟨r, hr, rfl, hs, found, hfits, -, -, -, u, time, status, hcommit, hevents, hlast⟩
  have hchange : ∀ i ∈ found.impacts, i.change = r.id := by
    intro i hi
    obtain ⟨x, -, time, id, rfl⟩ := Store.exists_left_of_forall₂ hfits.impacts hi
    rfl
  have hk : Store.Keyed (·.id) u.store.requests := by
    rw [Store.requests_commitAnalysis hcommit]
    exact h.requestIds.updateWhere fun _ _ => rfl
  have hreviews : u.Reviews w' := (reEvaluate_reviews u r.id).of_ok hlast
  obtain ⟨⟨time', hstore⟩, -⟩ :=
    (reEvaluate_yields (E := fun _ => True) hk fun _ => trivial).of_ok hlast
  -- the stored result
  have hfind := Store.dossier?_map (Store.dossiers_commitAnalysis hchange hcommit) fun _ => rfl
  have hmem : w.store.dossier r ∈ w.store.dossiers := List.mem_map_of_mem hr
  have hfound : w.store.dossier? r.id = some (w.store.dossier r) :=
    Store.dossier?_of_mem (d := w.store.dossier r) h.requestIds hmem
  have hnone : (w.store.dossier r).impacts = [] := (hagree _ hmem).waiting (Or.inr hs)
  have hcomplete : u.store.dossier? r.id =
      some (((w.store.dossier r).setStatus .analysisComplete time).extend found.impacts) := by
    rw [hfind, if_pos rfl, hfound]
    rfl
  have haudience : w'.store.audience .parserComplete r.id =
      Dossier.audience ⟨r, found.impacts⟩ .parserComplete := by
    rw [hstore, Store.audience_review hk, Store.audience_of_dossier? hcomplete]
    apply Dossier.audience_congr
    · rfl
    · simp [Dossier.extend, Dossier.setStatus, hnone]
  have hbefore : w.store.status? r.id = some .pendingAnalysis :=
    (Store.status?_of_dossier? hfound).trans (congrArg some hs)
  have hbetween : u.store.status? r.id = some .analysisComplete :=
    Store.status?_of_dossier? hcomplete
  have hafter : w'.store.status? r.id = some .analysisComplete ∨
      w'.store.status? r.id = some .pendingReview := by
    obtain ⟨_, _, _, hstatus⟩ := hreviews.events
    rcases hstatus r.id with ⟨hsame, -⟩ | ⟨-, hmoved, -⟩
    · exact Or.inl (hsame.trans hbetween)
    · exact Or.inr hmoved
  -- what is told of it, and of the review
  obtain ⟨new, hnew, hheard⟩ := hreviews.announces
  refine ⟨Dossier.news .parserComplete ⟨r, found.impacts⟩ ++ new, ?_, fun n hn id => ?_⟩
  · rw [hnew, hevents, List.append_assoc]
  · rw [heard_append, hheard n hn id]
    by_cases hid : id = r.id
    · subst hid
      rw [hbefore, hbetween]
      by_cases hn' : n = .parserComplete
      · subst hn'
        have hdone : heard .parserComplete r.id (Dossier.news .parserComplete ⟨r, found.impacts⟩) =
            Dossier.audience ⟨r, found.impacts⟩ .parserComplete :=
          Dossier.heard_news .parserComplete ⟨r, found.impacts⟩
        rw [hdone, haudience]
        rcases hafter with hs' | hs' <;> rw [hs'] <;> exact List.append_nil _
      · rw [Dossier.heard_news_of_ne fun heq => absurd heq.symm hn', List.nil_append]
        rcases hafter with hs' | hs' <;> rw [hs'] <;> cases n <;>
          first | rfl | exact absurd rfl hn'
    · have hother : u.store.status? id = w.store.status? id := by
        rw [Store.status?, hfind, if_neg hid, Store.status?]
      rw [Dossier.heard_news_of_ne fun _ => Ne.symm hid, List.nil_append, hother]

/-- An approval tells its news, whatever it does to the graph. -/
theorem announces_approved {w' : World} (h : w.store.Intact) {request user : String}
    {r : ChangeRequest} {t : Store} (hr : w.store.request? request = .ok (some r))
    (hat : Approved request user w.store t) (ht : w'.store.dossiers = t.dossiers)
    (hnews : w'.events = w.events ++ (w.store.dossier r).news .approved) : w.Announces w' := by
  obtain ⟨hm, rfl⟩ := Store.mem_of_request? hr
  obtain ⟨time, hdossiers⟩ := hat.dossiers
  have hopen : r.status.isTerminal = false := by
    rcases ready_of_approved h hm hat with hs | hs <;> rw [hs] <;> rfl
  exact announces_close h.requestIds hm hopen (Or.inl ⟨rfl, rfl⟩) ⟨time, ht.trans hdossiers⟩ hnews

/-- Every action tells exactly the news of the moves that it makes. -/
theorem announces_step (setup : Setup) (h : w.store.Intact) (hagree : w.store.AllAgree)
    (a : Action) : w.Announces (step setup w a) := by
  cases a with
  | enter | objects | create | submit | enrich | index | load => exact announces_quiet setup h rfl
  | acknowledge | dismiss | reEvaluate | sweep | autoconfirm =>
    exact (reviews_settling setup w rfl).announces
  | analyze request => exact announces_analyze setup h hagree request
  | approve request user =>
    refine Yields.world (R := w.Announces) (a := approveRequest setup request user)
      (approveRequest_ends setup request user)
      (fun _ _ _ hv => .of_eq hv.store hv.events) ?_
    rintro outcome w' - ⟨hat, r, pairs, hr, -, hnews, -⟩
    exact announces_approved h hr hat rfl hnews
  | approveAndRebuild request user =>
    refine Yields.world (R := w.Announces) (a := approveAndRebuild setup request user)
      (E := w.Announces) (P := fun _ => w.Announces) (Yields.need (fun _ => .of_eq rfl rfl) fun r hr => ?_)
      (fun _ _ _ hv => hv) fun _ _ _ hv => hv
    obtain ⟨hm, rfl⟩ := Store.mem_of_request? hr
    refine Yields.bind ((approveRequest_ends setup r.id user).imp
      (fun _ hv => .of_eq hv.store hv.events) fun _ _ hv => hv) ?_
    rintro outcome v ⟨hat, q, pairs, hq, hpromotes, hnews, -⟩
    obtain ⟨time, snapshot, hcommit⟩ := hpromotes.written
    refine Yields.bind (rebuildGraph_of_grows h (Store.grows_commitApproval hcommit) hm).yields ?_
    rintro graph _ rfl
    exact announces_approved h hq hat rfl hnews
  | reject request user =>
    refine Yields.world (R := w.Announces) (a := rejectRequest request user)
      (rejectRequest_decides w request user) (fun _ _ _ hv => .of_eq hv.store hv.events) ?_
    rintro _ w' - ⟨r, hr, rfl, hterm, -, ⟨time, hstore⟩, -, hnews⟩
    refine announces_close h.requestIds hr hterm (Or.inr ⟨rfl, rfl⟩) ⟨time, ?_⟩ hnews
    rw [hstore]
    exact Store.dossiers_close _ _ _ _

/-! ## What a run tells -/

/-- Whom an impact concerns stays the same. -/
theorem Impact.Settles.concerns {i j : Impact} (h : Impact.Settles i j) :
    (j.component, j.contributor) = (i.component, i.contributor) := by
  cases h <;> rfl

/-- Once a notice is due its audience stays the same. -/
theorem Advance.audience {strict : Prop} {a : Action} {d d' : Dossier} {n : Notice}
    (h : Advance strict a d d') (hd : n.isDue (some d.request.status) = true) :
    d'.audience n = d.audience n := by
  apply Dossier.audience_congr h.request.author
  cases h with
  | comment same =>
    have hbare (e : Dossier) : e.bare.impacts.map (fun i => (i.component, i.contributor)) =
        e.impacts.map fun i => (i.component, i.contributor) := by
      rw [Dossier.bare, List.map_map]
      rfl
    rw [← hbare d', same, hbare]
  | submit _ status =>
    rw [status] at hd
    cases n <;> cases hd
  | analyze _ status =>
    rw [status] at hd
    cases n <;> cases hd
  | @settle _ _ is impacts time =>
    have hreview : ((d.withImpacts is).review time).impacts = is := by
      rw [Dossier.review]
      split <;> rfl
    rw [hreview]
    exact Store.map_eq_of_forall₂ impacts fun i j hij => hij.concerns
  | approve => rfl
  | reject => rfl

/-- Of each milestone of a request nobody has heard yet, or the whole audience has, once. -/
def World.Informed (w : World) : Prop :=
  ∀ n : Notice, n.isMilestone = true → ∀ id, heard n id w.events = [] ∨
    n.isDue (w.store.status? id) = true ∧ heard n id w.events = w.store.audience n id

theorem informed_step (setup : Setup) (h : w.store.Intact) (hagree : w.store.AllAgree)
    (hi : w.Informed) (a : Action) : (step setup w a).Informed := by
  obtain ⟨new, hnew, hheard⟩ := announces_step setup h hagree a
  intro n hn id
  rw [hnew, heard_append, hheard n hn id]
  rcases dossier?_step setup h a id with ⟨d, d', hd, hd', hadv⟩ | ⟨hd, hnew⟩
  · have hlegal := hadv.legal
    have hbefore := hi n hn id
    rw [Store.status?_of_dossier? hd, Store.audience_of_dossier? hd] at hbefore
    rw [Store.status?_of_dossier? hd, Store.status?_of_dossier? hd', Store.audience_of_dossier? hd']
    by_cases hmarks : n.marks (some d.request.status) (some d'.request.status) = true
    · -- the move is made now, so it was not told before
      obtain ⟨hfirst, hdue⟩ := Notice.not_isDue_of_marks hlegal hmarks
      have hnone : heard n id w.events = [] := by
        rcases hbefore with hnone | ⟨htrue, -⟩
        · exact hnone
        · rw [hfirst] at htrue
          cases htrue
      rw [hnone, if_pos hmarks]
      exact Or.inr ⟨hdue, rfl⟩
    · rw [if_neg hmarks, List.append_nil]
      rcases hbefore with hnone | ⟨hdue, hsome⟩
      · exact Or.inl hnone
      · exact Or.inr ⟨Notice.isDue_of_legal hlegal hdue, hsome.trans (hadv.audience hdue).symm⟩
  · have hnone : heard n id w.events = [] := by
      rcases hi n hn id with hnone | ⟨hdue, -⟩
      · exact hnone
      · rw [Store.status?, hd] at hdue
        cases n <;> cases hdue
    rcases status?_step setup h a id with ⟨s, t, hs, -⟩ | ⟨-, hmarks⟩
    · rw [Store.status?, hd] at hs
      cases hs
    · rw [hnone, hmarks n]
      exact Or.inl rfl

theorem Reachable.informed (h : Reachable setup w) : w.Informed := by
  induction h with
  | start _ events =>
    rw [World.Informed, events]
    exact fun n _ id => Or.inl rfl
  | step hw a ih => exact informed_step setup hw.intact hw.allAgree ih a

/-- What users have been told, and what they are told next. -/
structure Announced (setup : Setup) (w : World) : Prop where
  /-- Nobody has heard of a milestone of a request twice, except that an author with an impact
  of their own request hears of the completed analysis in both roles. -/
  once : ∀ n : Notice, n.isMilestone = true → ∀ id user,
    (n = .parserComplete → ∀ r ∈ w.store.requests, r.id = id → r.author = user →
      ∀ i ∈ w.store.impacts, i.change = id → i.contributor ≠ user) →
    (heard n id w.events).count user ≤ 1
  /-- Whoever was told of a milestone, its whole audience was. -/
  whole : ∀ n : Notice, n.isMilestone = true → ∀ id,
    heard n id w.events = [] ∨ heard n id w.events = w.store.audience n id
  /-- Every action tells each audience of the moves that it makes, and of no others. -/
  next : ∀ a, w.Announces (step setup w a)

/-- In every reachable world users were told of each milestone at most once, when it was reached. -/
theorem reachable_announced (h : Reachable setup w) : Announced setup w where
  once n hn id user hrole := by
    rcases h.informed n hn id with hnone | ⟨-, hsome⟩
    · rw [hnone]
      exact Nat.zero_le 1
    · rw [hsome, Store.audience]
      cases hd : w.store.dossier? id with
      | none => exact Nat.zero_le 1
      | some d =>
        rw [Option.map_some, Option.getD_some]
        by_cases hn' : n = .parserComplete
        · subst hn'
          obtain ⟨hmem, rfl⟩ := Store.mem_of_dossier? hd
          rw [Dossier.count_audience_parserComplete]
          by_cases huser : user = d.request.author
          · have hnone : ¬∃ i ∈ d.impacts, i.contributor = user := by
              rintro ⟨i, hi, hcontributor⟩
              obtain ⟨hi, hchange⟩ := (Store.mem_impacts_of_mem_dossiers hmem).mp hi
              exact hrole rfl d.request (Store.mem_dossiers.mp hmem).1 rfl huser.symm i hi hchange
                hcontributor
            rw [if_neg hnone, if_pos huser]
          · rw [if_neg huser]
            split <;> decide
        · exact List.nodup_iff_count_le_one.mp (Dossier.nodup_audience hn') user
  whole n hn id := (h.informed n hn id).imp_right And.right
  next a := announces_step setup h.intact h.allAgree a

/-- The request of the small project has gone straight to review. -/
theorem sample_announced :
    Reachable sampleSetup (step sampleSetup sampleWorld (.analyze sampleRequest.id)) ∧
    heard .pendingReview sampleRequest.id
      (step sampleSetup sampleWorld (.analyze sampleRequest.id)).events = ["ana"] ∧
    Announced sampleSetup (step sampleSetup sampleWorld (.analyze sampleRequest.id)) := by
  have hreach : Reachable sampleSetup (step sampleSetup sampleWorld (.analyze sampleRequest.id)) :=
    reachable_sampleWorld.step _
  exact ⟨hreach, by decide +kernel, reachable_announced hreach⟩

/-- The project with two importing components, on one of which the author works too. -/
def sampleInsider : World :=
  step sampleSetup sampleLinked (.enter (.contributor { component := "ui", user := "ana" }))

/-- The author hears of the analysis of her own request twice. -/
theorem sample_told_twice :
    Reachable sampleSetup (step sampleSetup sampleInsider (.analyze sampleRequest.id)) ∧
    (heard .parserComplete sampleRequest.id
      (step sampleSetup sampleInsider (.analyze sampleRequest.id)).events).count "ana" = 2 := by
  have hinsider : Reachable sampleSetup sampleInsider := reachable_sampleLinked.step _
  have hreach := hinsider.step (.analyze sampleRequest.id)
  refine ⟨hreach, ?_⟩
  have hfresh : sampleInsider.IsFresh := by
    have hnone : sampleInsider.store.impacts = [] := by decide +kernel
    intro n _ i hi
    rw [hnone] at hi
    cases hi
  obtain ⟨found, report, hanalyzes, -⟩ := exists_analyzes_of_pending sampleSetup hinsider.intact
    (show sampleRequest ∈ sampleInsider.store.requests by decide +kernel) rfl hfresh
  obtain ⟨new, hnew, hheard⟩ :=
    announces_step sampleSetup hinsider.intact hinsider.allAgree (.analyze sampleRequest.id)
  generalize step sampleSetup sampleInsider (.analyze sampleRequest.id) = v at *
  obtain ⟨q, hq, hsame, hready⟩ := hanalyzes.exists_request
  -- the analysis has found an impact on the author
  have hmember : ∃ m ∈ sampleInsider.store.contributors, m.component = "ui" ∧ m.user = "ana" := by
    decide +kernel
  have hreaches : sampleInsider.Reaches sampleSetup sampleRequest "ui" :=
    (reaches_sampleLinked (by decide +kernel) (by decide +kernel) (by decide +kernel)
      rfl rfl rfl).1
  obtain ⟨i, hi, hkey⟩ := List.mem_map.mp
    ((hanalyzes.fits.mem_map_impacts hinsider.intact.toConsistent).mpr ⟨hreaches, hmember⟩)
  have hcontributor : i.contributor = "ana" := (Prod.mk.inj hkey).2
  have himpact : i ∈ (v.store.dossier q).impacts := by
    rw [Store.dossier, hanalyzes.impacts, List.mem_filter]
    exact ⟨List.mem_append_right _ hi,
      decide_eq_true ((hanalyzes.change_eq hi).trans hsame.id.symm)⟩
  -- so she is in the audience twice
  have hdossier : v.store.dossier? sampleRequest.id = some (v.store.dossier q) :=
    hsame.id ▸ Store.dossier?_of_mem hreach.intact.requestIds (d := v.store.dossier q)
      (List.mem_map_of_mem hq)
  have hstatus : v.store.status? sampleRequest.id = some q.status :=
    Store.status?_of_dossier? hdossier
  have hbefore : heard .parserComplete sampleRequest.id sampleInsider.events = [] := by
    decide +kernel
  have hpending : sampleInsider.store.status? sampleRequest.id = some .pendingAnalysis := by
    decide +kernel
  have hmarks : Notice.marks .parserComplete (some .pendingAnalysis) (some q.status) = true := by
    cases hs : q.status <;> rw [hs] at hready <;> first | rfl | cases hready
  have hauthor : "ana" = (v.store.dossier q).request.author := hsame.author.symm
  rw [hnew, heard_append, hbefore, List.nil_append, hheard .parserComplete rfl, hpending,
    hstatus, if_pos hmarks, Store.audience_of_dossier? hdossier,
    Dossier.count_audience_parserComplete, if_pos ⟨i, himpact, hcontributor⟩, if_pos hauthor]

end ChangeImpact
