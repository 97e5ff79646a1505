import ChangeImpact.Proofs.Store.Reading

/-!
# Requests with their impacts

A change request and its impacts make a dossier. The tables of requests and impacts
are the list of all dossiers, and each statement changes that list dossier by
dossier or adds one at the end.
-/

namespace ChangeImpact

/-- The impact as it is once somebody took note of it. -/
def Impact.acknowledge (auto : Bool) (time : Instant) (i : Impact) : Impact :=
  { i with acknowledged := true, acknowledgedAt := some time, autoConfirmed := auto }

/-- The impact as it is once it was turned down. -/
def Impact.dismiss (time : Instant) (i : Impact) : Impact :=
  { i with dismissed := true, acknowledgedAt := some time }

/-- An impact stays as it is or, if it is open, is acknowledged or dismissed. -/
inductive Impact.Settles : Impact → Impact → Prop where
  | same (i : Impact) : Settles i i
  | acknowledged {i : Impact} (isOpen : i.isResolved = false) (auto : Bool) (time : Instant) :
      Settles i (i.acknowledge auto time)
  | dismissed {i : Impact} (isOpen : i.isResolved = false) (time : Instant) :
      Settles i (i.dismiss time)

namespace Impact

variable {i j k : Impact}

/-- An impact that is resolved stays as it is. -/
theorem Settles.eq_of_isResolved (h : Settles i j) (hi : i.isResolved = true) : j = i := by
  cases h with
  | same => rfl
  | acknowledged hopen => rw [hopen] at hi; cases hi
  | dismissed hopen => rw [hopen] at hi; cases hi

theorem Settles.isResolved (h : Settles i j) (hi : i.isResolved = true) : j.isResolved = true := by
  rw [h.eq_of_isResolved hi, hi]

theorem Settles.change (h : Settles i j) : j.change = i.change := by
  cases h <;> rfl

theorem Settles.id (h : Settles i j) : j.id = i.id := by
  cases h <;> rfl

/-- An impact is resolved at most once. -/
theorem Settles.trans (h : Settles i j) (h' : Settles j k) : Settles i k := by
  cases h with
  | same => exact h'
  | acknowledged hopen auto time =>
    rw [h'.eq_of_isResolved rfl]
    exact .acknowledged hopen auto time
  | dismissed hopen time =>
    rw [h'.eq_of_isResolved (Bool.or_true _)]
    exact .dismissed hopen time

end Impact

/-- A request and its impacts. -/
structure Dossier where
  request : ChangeRequest
  impacts : List Impact

namespace Dossier

variable {d : Dossier}

/-- Nobody has to look at an impact any more. -/
def isResolved (d : Dossier) : Bool := d.impacts.all (·.isResolved)

theorem isResolved_iff : d.isResolved = true ↔ ∀ i ∈ d.impacts, i.isResolved = true :=
  List.all_eq_true

/-- The dossier when the request is looked at again: an analysed request without open
impacts moves on to review. -/
def review (time : Instant) (d : Dossier) : Dossier :=
  if d.request.status = .analysisComplete ∧ d.isResolved then
    { d with request := { d.request with status := .pendingReview, updatedAt := time } }
  else d

@[simp] theorem review_id (time : Instant) : (d.review time).request.id = d.request.id := by
  rw [review]
  split <;> rfl

/-- Looking again at what was just looked at changes nothing. -/
theorem review_review (time time' : Instant) : (d.review time).review time' = d.review time := by
  by_cases h : d.request.status = .analysisComplete ∧ d.isResolved
  · have hr : (d.review time).request.status = .pendingReview := by rw [review, if_pos h]
    have hn : ¬((d.review time).request.status = .analysisComplete ∧
        (d.review time).isResolved) := by
      rintro ⟨hs, -⟩
      rw [hr] at hs
      cases hs
    exact if_neg hn
  · have hd (u : Instant) : d.review u = d := if_neg h
    rw [hd, hd]

end Dossier

namespace Store

variable {s t : Store}

/-- The request with its impacts. -/
def dossier (s : Store) (r : ChangeRequest) : Dossier where
  request := r
  impacts := s.impacts.filter (·.change = r.id)

/-- All requests with their impacts. -/
def dossiers (s : Store) : List Dossier := s.requests.map s.dossier

theorem mem_dossiers {d : Dossier} :
    d ∈ s.dossiers ↔ d.request ∈ s.requests ∧ s.dossier d.request = d := by
  rw [dossiers, List.mem_map]
  constructor
  · rintro ⟨r, hr, rfl⟩
    exact ⟨hr, rfl⟩
  · rintro ⟨hr, hd⟩
    exact ⟨d.request, hr, hd⟩

theorem mem_impacts_of_mem_dossiers {d : Dossier} (h : d ∈ s.dossiers) {i : Impact} :
    i ∈ d.impacts ↔ i ∈ s.impacts ∧ i.change = d.request.id := by
  rw [← (mem_dossiers.mp h).2, dossier, List.mem_filter, decide_eq_true_eq]

theorem map_request_dossiers (s : Store) : s.dossiers.map (·.request) = s.requests := by
  rw [dossiers, List.map_map]
  exact List.map_id _

/-- The dossiers of a store depend on its requests and impacts. -/
theorem dossiers_congr (hr : t.requests = s.requests) (hi : t.impacts = s.impacts) :
    t.dossiers = s.dossiers := by
  simp only [dossiers, hr]
  apply List.map_congr_left
  intro r _
  rw [dossier, dossier, hi]

theorem dossiers_updateRequest {id : String} {f : ChangeRequest → ChangeRequest}
    (hid : ∀ r, (f r).id = r.id) :
    (s.updateRequest id f).dossiers =
      s.dossiers.map fun d =>
        if d.request.id = id then { d with request := f d.request } else d := by
  rw [dossiers, dossiers, List.map_map, updateRequest, mend, Store.updateWhere, List.map_map]
  apply List.map_congr_left
  intro r _
  by_cases h : r.id = id
  · simp [dossier, h, hid]
  · simp [dossier, h]

/-- An update of impacts acts on each dossier alone. -/
theorem dossiers_updateImpacts {p : Impact → Bool} {f : Impact → Impact}
    (hc : ∀ i, (f i).change = i.change) :
    { s with impacts := updateWhere p f s.impacts }.dossiers =
      s.dossiers.map fun d => { d with impacts := updateWhere p f d.impacts } := by
  rw [dossiers, dossiers, List.map_map]
  apply List.map_congr_left
  intro r _
  have hf : (updateWhere p f s.impacts).filter (·.change = r.id) =
      updateWhere p f (s.impacts.filter (·.change = r.id)) := by
    rw [Store.updateWhere, List.filter_map]
    congr 1
    apply List.filter_congr
    intro i _
    by_cases h : p i = true
    · simp [h, hc]
    · simp [h]
  simp only [dossier, Function.comp_apply, hf]

theorem dossiers_insertRequest (h : s.Consistent) {r : ChangeRequest}
    (hi : s.insertRequest r = .ok t) : t.dossiers = s.dossiers ++ [⟨r, []⟩] := by
  obtain ⟨hk, hi⟩ := demand_bind_ok.mp hi
  obtain ⟨-, hi⟩ := demand_bind_ok.mp hi
  cases hi
  rw [dossiers, List.map_append]
  congr 1
  rw [List.map_singleton, dossier]
  congr 2
  rw [List.filter_eq_nil_iff]
  intro i hm hc
  obtain ⟨q, hq, hid⟩ := h.impactRequests i hm _ rfl
  have hr : s.hasRequest r.id = true :=
    hasRequest_iff.mpr ⟨q, hq, hid.trans (of_decide_eq_true hc)⟩
  rw [hr] at hk
  cases hk

/-- Adding impacts appends them. -/
theorem eq_of_insertImpact {i : Impact} (h : s.insertImpact i = .ok t) :
    t = { s with impacts := s.impacts ++ [i] } := by
  obtain ⟨-, h⟩ := demand_bind_ok.mp h
  obtain ⟨-, h⟩ := demand_bind_ok.mp h
  cases h
  rfl

theorem eq_of_insertImpacts {is : List Impact} (h : s.insertImpacts is = .ok t) :
    t = { s with impacts := s.impacts ++ is } := by
  have hrows := eq_of_foldlM Store.impacts (fun s impacts => { s with impacts }) h
    eq_of_insertImpact (fun _ => rfl) (fun _ _ => rfl) fun _ _ _ => rfl
  rwa [List.map_id'] at hrows

/-- Adding the impacts of one request extends its dossier. -/
theorem dossiers_insertImpacts {id : String} {is : List Impact} (hc : ∀ i ∈ is, i.change = id)
    (h : s.insertImpacts is = .ok t) :
    t.dossiers =
      s.dossiers.map fun d =>
        if d.request.id = id then { d with impacts := d.impacts ++ is } else d := by
  rw [eq_of_insertImpacts h, dossiers, dossiers, List.map_map]
  apply List.map_congr_left
  intro r _
  simp only [dossier, Function.comp_apply, List.filter_append]
  by_cases hr : r.id = id
  · have hall : is.filter (·.change = r.id) = is := by
      rw [List.filter_eq_self]
      intro i hi
      rw [hc i hi, hr, decide_eq_true rfl]
    rw [hall]
    exact (if_pos hr).symm
  · have hnone : is.filter (·.change = r.id) = [] := by
      rw [List.filter_eq_nil_iff]
      intro i hi hd
      exact hr ((of_decide_eq_true hd).symm.trans (hc i hi))
    rw [hnone, List.append_nil]
    exact (if_neg hr).symm

/-- The store after a request was looked at again. -/
def review (id : String) (time : Instant) (s : Store) : Store :=
  if ∃ d ∈ s.dossiers, d.request.id = id ∧ d.request.status = .analysisComplete ∧ d.isResolved then
    s.updateRequest id fun r => { r with status := .pendingReview, updatedAt := time }
  else s

/-- Looking at a request again touches requests alone. -/
theorem impacts_review {id : String} {time : Instant} :
    (s.review id time).impacts = s.impacts := by
  rw [review]
  split <;> rfl

theorem components_review {id : String} {time : Instant} :
    (s.review id time).components = s.components := by
  rw [review]
  split <;> rfl

/-- The dossiers of different requests have different identifiers. -/
theorem eq_of_request_id (hk : Keyed (·.id) s.requests) {d e : Dossier} (hd : d ∈ s.dossiers)
    (he : e ∈ s.dossiers) (hid : d.request.id = e.request.id) : d = e := by
  rw [mem_dossiers] at hd he
  rw [← hd.2, ← he.2, hk.eq_of_key_eq hd.1 he.1 hid]

theorem dossiers_review (hk : Keyed (·.id) s.requests) (id : String) (time : Instant) :
    (s.review id time).dossiers =
      s.dossiers.map fun d => if d.request.id = id then d.review time else d := by
  rw [review]
  split
  · rename_i hd
    obtain ⟨d, hd, rfl, hs⟩ := hd
    rw [dossiers_updateRequest fun _ => by rfl]
    apply List.map_congr_left
    intro e he
    by_cases hid : e.request.id = d.request.id
    · rw [if_pos hid, if_pos hid, Dossier.review, eq_of_request_id hk he hd hid, if_pos hs]
    · rw [if_neg hid, if_neg hid]
  · rename_i hd
    conv_lhs => rw [← List.map_id s.dossiers]
    apply List.map_congr_left
    intro e he
    by_cases hid : e.request.id = id
    · rw [if_pos hid, Dossier.review, if_neg fun hs => hd ⟨e, he, hid, hs⟩]
      rfl
    · rw [if_neg hid]
      rfl

end Store

end ChangeImpact
