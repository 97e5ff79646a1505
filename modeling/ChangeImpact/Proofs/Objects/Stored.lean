import ChangeImpact.Proofs.Ordered
import ChangeImpact.Workflow.Approval

/-!
# What is stored under a key

Storing and removing objects changes nothing under other keys. Of several objects that are
stored under one key the last is found there.
-/

namespace ChangeImpact

variable {o o' : Objects} {key : String} {data : Bytes}

theorem Objects.get?_put {k : String} (h : o.put k data = .ok o') :
    o'.get? key = if key = k then some data else o.get? key := by
  rw [Objects.put] at h
  split at h
  · cases h
  · cases h
    exact Ordered.find?_upsert

theorem Objects.get?_delete {k : String} (h : o.delete k = .ok o') :
    o'.get? key = if key = k then none else o.get? key := by
  rw [Objects.delete] at h
  split at h
  · cases h
  · cases h
    exact Ordered.find?_filter_ne

theorem Objects.toOption_get (key : String) : (o.get key).toOption = o.get? key := by
  rw [Objects.get]
  cases o.get? key <;> rfl

theorem putAll_cons_eq_none {c : String × Bytes} {contents : List (String × Bytes)}
    (h : (putAll (c :: contents) o).2 = (none, o')) :
    ∃ first, o.put c.1 c.2 = .ok first ∧ (putAll contents first).2 = (none, o') := by
  obtain ⟨k, d⟩ := c
  rw [putAll] at h
  cases hput : o.put k d with
  | error e =>
    rw [hput] at h
    cases h
  | ok first =>
    rw [hput] at h
    exact ⟨first, rfl, h⟩

/-- Where none of the keys is refused, everything is stored. -/
theorem refusal_putAll {contents : List (String × Bytes)}
    (h : ∀ c ∈ contents, o.refusesPut c.1 = false) : (putAll contents o).2.1 = none := by
  induction contents generalizing o with
  | nil => rfl
  | cons c contents ih =>
    obtain ⟨key, data⟩ := c
    rw [putAll, Objects.put, h _ (List.mem_cons_self ..)]
    exact ih (o := { o with entries := Ordered.upsert key data o.entries })
      fun c hc => h c (List.mem_cons_of_mem _ hc)

/-- Objects under other keys stay, even if one is refused on the way. -/
theorem get?_putAll_of_ne {contents : List (String × Bytes)} (hne : ∀ c ∈ contents, c.1 ≠ key) :
    (putAll contents o).2.2.get? key = o.get? key := by
  induction contents generalizing o with
  | nil => rfl
  | cons c contents ih =>
    obtain ⟨k, d⟩ := c
    rw [putAll]
    cases hput : o.put k d with
    | error e => rfl
    | ok first =>
      refine (ih fun d hd => hne d (List.mem_cons_of_mem _ hd)).trans ?_
      rw [Objects.get?_put hput, if_neg (hne _ (List.mem_cons_self ..)).symm]

theorem get?_eq_of_putAll {contents : List (String × Bytes)}
    (h : (putAll contents o).2 = (none, o')) (hne : ∀ c ∈ contents, c.1 ≠ key) :
    o'.get? key = o.get? key := by
  have hsame := get?_putAll_of_ne (o := o) hne
  rwa [h] at hsame

/-- What is stored last under a key is found there. -/
theorem get?_putAll_append {before after : List (String × Bytes)}
    (h : (putAll (before ++ (key, data) :: after) o).2 = (none, o'))
    (hlast : ∀ c ∈ after, c.1 ≠ key) : o'.get? key = some data := by
  induction before generalizing o with
  | nil =>
    obtain ⟨first, hput, h⟩ := putAll_cons_eq_none h
    rw [get?_eq_of_putAll h hlast, Objects.get?_put hput, if_pos rfl]
  | cons c before ih =>
    obtain ⟨first, -, h⟩ := putAll_cons_eq_none h
    exact ih h

/-- Only what was to be stored is reported as stored. -/
theorem mem_map_of_mem_putAll {contents : List (String × Bytes)} (h : key ∈ (putAll contents o).1) :
    key ∈ contents.map (·.1) := by
  induction contents generalizing o with
  | nil => cases h
  | cons c contents ih =>
    obtain ⟨key', data⟩ := c
    rw [putAll] at h
    cases hput : o.put key' data with
    | error e =>
      simp only [hput] at h
      cases h
    | ok o' =>
      simp only [hput] at h
      rcases List.mem_cons.mp h with rfl | h
      · exact List.mem_cons_self ..
      · exact List.mem_cons_of_mem _ (ih h)

theorem get?_removeAll_of_notMem {keys : List String} (h : key ∉ keys) :
    (removeAll keys o).get? key = o.get? key := by
  induction keys generalizing o with
  | nil => rfl
  | cons k keys ih =>
    rw [removeAll, List.foldl_cons]
    refine (ih fun hk => h (List.mem_cons_of_mem _ hk)).trans ?_
    have hne : key ≠ k := fun hk => h (hk ▸ List.mem_cons_self ..)
    cases hdelete : o.delete k with
    | error e => rfl
    | ok o' =>
      rw [Except.toOption, Option.getD_some, Objects.get?_delete hdelete, if_neg hne]

end ChangeImpact
