import ChangeImpact.Ordered
import Mathlib.Data.List.Induction
import Mathlib.Data.List.Sort
import Mathlib.Order.RelClasses

/-!
# Strictly ordered lists are sets and keyed collections

Members of `insert`, `ofList` and `union` are the obvious ones, whatever the order.
Where the order is strict and total these lists ascend, so they have no
repetition; a list that ascends in its keys gives back under a key what `alter`
last put there.
-/

namespace ChangeImpact.Ordered

variable {α κ : Type}

section Members

variable [LT α] [DecidableLT α] [DecidableEq α] {a b : α} {xs ys : List α}

@[simp] theorem mem_insert : b ∈ insert a xs ↔ b = a ∨ b ∈ xs := by
  induction xs with
  | nil => simp [insert]
  | cons x xs ih =>
    rw [insert]
    by_cases hlt : a < x
    · rw [if_pos hlt, List.mem_cons]
    · rw [if_neg hlt]
      by_cases he : a = x
      · rw [if_pos he, he, List.mem_cons, ← or_assoc, or_self]
      · rw [if_neg he, List.mem_cons, ih, List.mem_cons]
        exact or_left_comm

@[simp] theorem mem_union : b ∈ union xs ys ↔ b ∈ xs ∨ b ∈ ys := by
  induction xs with
  | nil => simp [union]
  | cons x xs ih =>
    rw [union, List.foldr_cons, mem_insert, ← union, ih, List.mem_cons, or_assoc]

theorem ofList_eq_union (xs : List α) : ofList xs = union xs [] := rfl

@[simp] theorem mem_ofList : b ∈ ofList xs ↔ b ∈ xs := by
  rw [ofList_eq_union, mem_union]
  exact or_iff_left List.not_mem_nil

end Members

section Ascending

variable [LT α] [DecidableLT α] [DecidableEq α] [IsStrictTotalOrder α (· < ·)] {a : α}
  {xs ys : List α}

/-- An insertion keeps a list ascending. -/
theorem pairwise_insert (h : xs.Pairwise (· < ·)) : (insert a xs).Pairwise (· < ·) := by
  induction xs with
  | nil => exact List.pairwise_singleton _ _
  | cons x xs ih =>
    obtain ⟨hx, hs⟩ := List.pairwise_cons.mp h
    rw [insert]
    by_cases hlt : a < x
    · rw [if_pos hlt, List.pairwise_cons]
      refine ⟨fun y hy => ?_, h⟩
      rcases List.mem_cons.mp hy with rfl | hy
      · exact hlt
      · exact trans_of (· < ·) hlt (hx y hy)
    · rw [if_neg hlt]
      by_cases he : a = x
      · rwa [if_pos he]
      · rw [if_neg he, List.pairwise_cons]
        refine ⟨fun y hy => ?_, ih hs⟩
        rcases mem_insert.mp hy with rfl | hy
        · exact ((trichotomous_of (· < ·) y x).resolve_left hlt).resolve_left he
        · exact hx y hy

theorem pairwise_union (h : ys.Pairwise (· < ·)) : (union xs ys).Pairwise (· < ·) := by
  induction xs with
  | nil => exact h
  | cons x xs ih => exact pairwise_insert ih

theorem pairwise_ofList : (ofList xs).Pairwise (· < ·) := by
  rw [ofList_eq_union]
  exact pairwise_union List.Pairwise.nil

theorem nodup_ofList : (ofList xs).Nodup :=
  pairwise_ofList.imp fun hxy => ne_of_irrefl hxy

end Ascending

/-- A list has the members with a property, each once, ascending. -/
structure Enumerates [LT α] (xs : List α) (p : α → Prop) : Prop where
  ascends : xs.Pairwise (· < ·)
  mem_iff : ∀ a, a ∈ xs ↔ p a

section Enumerates

variable [LT α] {xs ys : List α} {p q : α → Prop}

theorem Enumerates.congr (h : Enumerates xs p) (hpq : ∀ a, p a ↔ q a) : Enumerates xs q :=
  ⟨h.ascends, fun a => (h.mem_iff a).trans (hpq a)⟩

theorem Enumerates.filter {s : α → Bool} (h : Enumerates xs p) :
    Enumerates (xs.filter s) fun a => s a = true ∧ p a :=
  ⟨h.ascends.filter s, fun a => by rw [List.mem_filter, h.mem_iff, and_comm]⟩

theorem enumerates_nil (h : ∀ a, ¬p a) : Enumerates [] p :=
  ⟨List.Pairwise.nil, fun a => iff_of_false List.not_mem_nil (h a)⟩

variable [IsStrictTotalOrder α (· < ·)]

/-- There is one list of the members with a property. -/
theorem Enumerates.eq (hx : Enumerates xs p) (hy : Enumerates ys q) (h : ∀ a, p a ↔ q a) :
    xs = ys :=
  hx.ascends.eq_of_mem_iff hy.ascends fun a =>
    (hx.mem_iff a).trans ((h a).trans (hy.mem_iff a).symm)

variable [DecidableLT α] [DecidableEq α]

theorem enumerates_ofList (xs : List α) : Enumerates (ofList xs) (· ∈ xs) :=
  ⟨pairwise_ofList, fun _ => mem_ofList⟩

theorem Enumerates.union (hx : Enumerates xs p) (hy : Enumerates ys q) :
    Enumerates (union xs ys) fun a => p a ∨ q a :=
  ⟨pairwise_union hy.ascends, fun a => by rw [mem_union, hx.mem_iff, hy.mem_iff]⟩

end Enumerates

section Keyed

variable [LT κ] [DecidableLT κ] [DecidableEq κ] {key k : κ} {f : Option α → α}
  {entries : List (κ × α)}

/-- Altering at a key adds no other key. -/
@[simp] theorem mem_keys_alter :
    k ∈ (alter key f entries).map (·.1) ↔ k = key ∨ k ∈ entries.map (·.1) := by
  induction entries with
  | nil => simp [alter]
  | cons e entries ih =>
    obtain ⟨k', v⟩ := e
    rw [alter]
    by_cases hlt : key < k'
    · rw [if_pos hlt, List.map_cons, List.mem_cons]
    · rw [if_neg hlt]
      by_cases he : key = k'
      · rw [if_pos he, he, List.map_cons, List.map_cons, List.mem_cons, ← or_assoc, or_self]
      · rw [if_neg he, List.map_cons, List.mem_cons, ih, List.map_cons, List.mem_cons]
        exact or_left_comm

/-- An entry after an alteration is an old one or the altered one. -/
theorem mem_alter {e : κ × α} (h : e ∈ alter key f entries) :
    e ∈ entries ∨ ∃ old, e = (key, f old) ∧ ∀ v, old = some v → (key, v) ∈ entries := by
  induction entries with
  | nil =>
    rw [alter, List.mem_singleton] at h
    exact Or.inr ⟨none, h, fun v hv => nomatch hv⟩
  | cons e' entries ih =>
    obtain ⟨k', v'⟩ := e'
    rw [alter] at h
    by_cases hlt : key < k'
    · rw [if_pos hlt] at h
      rcases List.mem_cons.mp h with rfl | h
      · exact Or.inr ⟨none, rfl, fun v hv => nomatch hv⟩
      · exact Or.inl h
    · rw [if_neg hlt] at h
      by_cases he : key = k'
      · rw [if_pos he] at h
        rcases List.mem_cons.mp h with rfl | h
        · refine Or.inr ⟨some v', by rw [he], ?_⟩
          rintro v ⟨⟩
          exact he ▸ List.mem_cons_self ..
        · exact Or.inl (List.mem_cons_of_mem _ h)
      · rw [if_neg he] at h
        rcases List.mem_cons.mp h with rfl | h
        · exact Or.inl (List.mem_cons_self ..)
        · rcases ih h with h | ⟨old, ho, hm⟩
          · exact Or.inl (List.mem_cons_of_mem _ h)
          · exact Or.inr ⟨old, ho, fun v hv => List.mem_cons_of_mem _ (hm v hv)⟩

/-- Removing a key that was not there undoes an alteration at it. -/
theorem filter_alter (p : κ × α → Bool) (hp : ∀ v, p (key, v) = false) :
    (alter key f entries).filter p = entries.filter p := by
  induction entries with
  | nil => simp [alter, hp]
  | cons e entries ih =>
    obtain ⟨k', v⟩ := e
    rw [alter]
    by_cases hlt : key < k'
    · rw [if_pos hlt, List.filter_cons_of_neg (by simp [hp])]
    · rw [if_neg hlt]
      by_cases he : key = k'
      · subst he
        rw [if_pos rfl, List.filter_cons_of_neg (by simp [hp]),
          List.filter_cons_of_neg (by simp [hp])]
      · rw [if_neg he, List.filter_cons, ih, List.filter_cons]

omit [LT κ] [DecidableLT κ] in
theorem find?_cons {k' : κ} {v : α} :
    find? k ((k', v) :: entries) = if k = k' then some v else find? k entries := by
  by_cases hk : k = k'
  · simp [find?, hk]
  · simp [find?, hk, Ne.symm hk]

/-- Under the key that was set stands its value, under any other what was there, whatever the
order of the entries. -/
theorem find?_upsert {value : α} :
    find? k (upsert key value entries) = if k = key then some value else find? k entries := by
  induction entries with
  | nil => rw [upsert, alter, find?_cons]
  | cons e entries ih =>
    obtain ⟨k', v⟩ := e
    rw [upsert, alter]
    by_cases hlt : key < k'
    · rw [if_pos hlt, find?_cons]
    · rw [if_neg hlt]
      by_cases he : key = k'
      · rw [if_pos he, find?_cons, find?_cons, he]
        split
        · rfl
        · rfl
      · rw [if_neg he, find?_cons, find?_cons, ← upsert, ih]
        by_cases hk : k = k'
        · rw [if_pos hk, if_pos hk, if_neg (fun hkey => he (hkey.symm.trans hk))]
        · rw [if_neg hk, if_neg hk]

variable [IsStrictTotalOrder κ (· < ·)]

theorem pairwise_keys_alter (h : (entries.map (·.1)).Pairwise (· < ·)) :
    ((alter key f entries).map (·.1)).Pairwise (· < ·) := by
  induction entries with
  | nil => exact List.pairwise_singleton _ _
  | cons e entries ih =>
    obtain ⟨k', v⟩ := e
    rw [List.map_cons] at h
    obtain ⟨hx, hs⟩ := List.pairwise_cons.mp h
    rw [alter]
    by_cases hlt : key < k'
    · rw [if_pos hlt, List.map_cons, List.map_cons, List.pairwise_cons]
      refine ⟨fun y hy => ?_, h⟩
      rcases List.mem_cons.mp hy with rfl | hy
      · exact hlt
      · exact trans_of (· < ·) hlt (hx y hy)
    · rw [if_neg hlt]
      by_cases he : key = k'
      · rwa [if_pos he, List.map_cons]
      · rw [if_neg he, List.map_cons, List.pairwise_cons]
        refine ⟨fun y hy => ?_, ih hs⟩
        rcases mem_keys_alter.mp hy with rfl | hy
        · exact ((trichotomous_of (· < ·) y k').resolve_left hlt).resolve_left he
        · exact hx y hy

/-- Under the altered key there is the new value, under any other what was there. -/
theorem find?_alter (h : (entries.map (·.1)).Pairwise (· < ·)) :
    find? k (alter key f entries) =
      if k = key then some (f (find? key entries)) else find? k entries := by
  induction entries with
  | nil =>
    by_cases hk : k = key
    · simp [alter, find?, hk]
    · simp [alter, find?, hk, Ne.symm hk]
  | cons e entries ih =>
    obtain ⟨k', v⟩ := e
    rw [List.map_cons] at h
    obtain ⟨hx, hs⟩ := List.pairwise_cons.mp h
    rw [alter]
    by_cases hlt : key < k'
    · have hnone : find? key ((k', v) :: entries) = none := by
        rw [find?, Option.map_eq_none_iff, List.find?_eq_none]
        intro e he hek
        have hm := List.mem_map_of_mem (f := (·.1)) he
        rw [of_decide_eq_true hek] at hm
        rcases List.mem_cons.mp hm with rfl | hm
        · exact irrefl_of (· < ·) _ hlt
        · exact asymm_of (· < ·) hlt (hx _ hm)
      rw [if_pos hlt, hnone]
      by_cases hk : k = key
      · simp [find?, hk]
      · simp [find?, hk, Ne.symm hk]
    · rw [if_neg hlt]
      by_cases he : key = k'
      · subst he
        rw [if_pos rfl]
        by_cases hk : k = key
        · simp [find?, hk]
        · simp [find?, hk, Ne.symm hk]
      · rw [if_neg he]
        by_cases hk' : k = k'
        · subst hk'
          simp [find?, Ne.symm he]
        · have hcons (es : List (κ × α)) : find? k ((k', v) :: es) = find? k es := by
            simp [find?, Ne.symm hk']
          have hkey : find? key ((k', v) :: entries) = find? key entries := by
            simp [find?, Ne.symm he]
          rw [hcons, hcons, hkey, ih hs]

omit [DecidableLT κ] in
/-- In a list that ascends in its keys every entry is found under its key. -/
theorem find?_eq_some_of_mem (h : (entries.map (·.1)).Pairwise (· < ·)) {v : α}
    (he : (k, v) ∈ entries) : find? k entries = some v := by
  induction entries with
  | nil => cases he
  | cons e entries ih =>
    obtain ⟨hx, hs⟩ := List.pairwise_cons.mp (List.map_cons ▸ h)
    rcases List.mem_cons.mp he with rfl | he
    · simp [find?]
    · have hne : e.1 ≠ k := ne_of_irrefl (hx k (List.mem_map_of_mem (f := (·.1)) he))
      rw [← ih hs he]
      simp [find?, hne]

end Keyed

/-- Without the entries of one key, what was there is found under the others only. -/
theorem find?_filter_ne [DecidableEq κ] {k key : κ} {entries : List (κ × α)} :
    find? k (entries.filter (·.1 ≠ key)) = if k = key then none else find? k entries := by
  rw [find?, List.find?_filter]
  split
  · next h =>
    subst h
    rw [List.find?_eq_none.mpr (by simp), Option.map_none]
  · next h =>
    refine congrArg (Option.map _) (congrArg (List.find? · entries) (funext fun e => ?_))
    by_cases he : e.1 = k
    · simp [he, h]
    · simp [he]

/-- What is made of each of some keys is found under these and under no other. -/
theorem find?_map_keys [DecidableEq κ] {key : κ} {keys : List κ} {g : κ → α} :
    find? key (keys.map fun k => (k, g k)) = if key ∈ keys then some (g key) else none := by
  induction keys with
  | nil => rfl
  | cons k keys ih =>
    rw [List.map_cons, find?_cons, ih]
    by_cases hk : key = k
    · simp [hk]
    · simp [hk]

/-- Sorting keeps the members. -/
@[simp] theorem mem_sortBy {le : α → α → Bool} {xs : List α} {a : α} :
    a ∈ sortBy le xs ↔ a ∈ xs := List.mem_mergeSort

/-- Sorting puts the members in their order. -/
theorem pairwise_sortBy {le : α → α → Bool} {r : α → α → Prop} (hle : ∀ a b, le a b = true ↔ r a b)
    (htrans : ∀ a b c, r a b → r b c → r a c) (htotal : ∀ a b, r a b ∨ r b a) (xs : List α) :
    (sortBy le xs).Pairwise r := by
  refine (List.pairwise_mergeSort (fun a b c hab hbc => ?_) (fun a b => ?_) xs).imp
    fun hab => (hle _ _).mp hab
  · rw [hle] at hab hbc ⊢
    exact htrans a b c hab hbc
  · rw [Bool.or_eq_true, hle, hle]
    exact htotal a b

/-- What is left out does not matter for the order of the others. -/
theorem sortBy_filter {le : α → α → Bool} (htrans : ∀ a b c, le a b = true → le b c = true → le a c)
    (htotal : ∀ a b, (le a b || le b a) = true) (p : α → Bool) (xs : List α) :
    sortBy le (xs.filter p) = (sortBy le xs).filter p := by
  have hafter {a : α} {ys l r : List α} (h : (a :: ys).mergeSort le = l ++ a :: r) :
      ∀ b ∈ r, le a b = true := by
    have hsorted := List.pairwise_mergeSort htrans htotal (a :: ys)
    rw [h, List.pairwise_append, List.pairwise_cons] at hsorted
    exact hsorted.2.1.1
  have hparts {q : α → Bool} {l r : List α} (hl : ∀ b ∈ l, (!q b) = true)
      (hr : ∀ b ∈ r, q b = true) :
      (l ++ r).filter (!q ·) = l ∧ (l ++ r).filter q = r := by
    rw [List.filter_append, List.filter_append, List.filter_eq_self.mpr hl,
      List.filter_eq_self.mpr hr, List.filter_eq_nil_iff.mpr fun b hb => by simp [hr b hb],
      List.filter_eq_nil_iff.mpr fun b hb => by simpa using hl b hb]
    exact ⟨List.append_nil l, rfl⟩
  induction xs with
  | nil => rw [List.filter_nil, sortBy, List.mergeSort_nil, List.filter_nil]
  | cons a xs ih =>
    obtain ⟨l, r, hxs, hrest, hl⟩ := List.mergeSort_cons htrans htotal a xs
    rw [sortBy, sortBy, hrest, List.filter_append] at ih
    by_cases hp : p a = true
    case neg =>
      rw [List.filter_cons_of_neg hp, sortBy, sortBy, hxs, List.filter_append,
        List.filter_cons_of_neg hp, ih]
    case pos =>
      obtain ⟨m, n, hys, hmore, hm⟩ := List.mergeSort_cons htrans htotal a (xs.filter p)
      rw [hmore] at ih
      -- Both lists are cut before the first member that is not below `a`.
      have hcut := hparts hm (hafter hys)
      have hcut' := hparts (l := l.filter p) (r := r.filter p)
        (fun b hb => hl b (List.mem_filter.mp hb).1)
        fun b hb => hafter hxs b (List.mem_filter.mp hb).1
      rw [ih] at hcut
      rw [List.filter_cons_of_pos hp, sortBy, sortBy, hxs, hys, List.filter_append,
        List.filter_cons_of_pos hp, ← hcut.1.symm.trans hcut'.1, ← hcut.2.symm.trans hcut'.2]

/-- What does not matter for the order can be changed before or after sorting. -/
theorem sortBy_map {le : α → α → Bool} {g : α → α} (hg : ∀ a b, le (g a) (g b) = le a b)
    (xs : List α) : sortBy le (xs.map g) = (sortBy le xs).map g :=
  (List.map_mergeSort fun a _ b _ => (hg a b).symm).symm

/-! ## Members in the order of their first occurrence -/

section Distinct

variable [DecidableEq α] {a : α} {xs : List α}

theorem mem_insertOnce {b : α} : b ∈ insertOnce a xs ↔ b ∈ xs ∨ b = a := by
  rw [insertOnce]
  split
  · next h => exact ⟨.inl, fun hb => hb.elim id fun hb => hb ▸ h⟩
  · rw [List.mem_append, List.mem_singleton]

theorem distinct_append_singleton (xs : List α) (a : α) :
    distinct (xs ++ [a]) = insertOnce a (distinct xs) := by
  rw [distinct, List.foldl_append]
  rfl

/-- Going on from members that are there already adds those that are not. -/
private theorem foldl_insertOnce (seen xs : List α) :
    xs.foldl (fun seen a => insertOnce a seen) seen =
      seen ++ (distinct xs).filter (· ∉ seen) := by
  induction xs using List.reverseRecOn with
  | nil => simp [distinct]
  | append_singleton xs x ih =>
    rw [List.foldl_append, ih, distinct_append_singleton]
    change insertOnce x (seen ++ (distinct xs).filter (· ∉ seen)) = _
    by_cases hx : x ∈ distinct xs
    · have hin : x ∈ seen ++ (distinct xs).filter (· ∉ seen) := by
        by_cases hs : x ∈ seen <;> simp [hs, hx]
      rw [insertOnce, insertOnce, if_pos hin, if_pos hx]
    · by_cases hs : x ∈ seen
      · rw [insertOnce, insertOnce, if_neg hx, if_pos (List.mem_append_left _ hs)]
        simp [hs]
      · rw [insertOnce, insertOnce, if_neg hx, if_neg (by simp [hs, hx])]
        simp [hs]

/-- The first member stays in front, and is left out of the rest. -/
theorem distinct_cons (a : α) (xs : List α) :
    distinct (a :: xs) = a :: (distinct xs).filter (· ≠ a) := by
  rw [distinct, List.foldl_cons, show insertOnce a ([] : List α) = [a] from rfl,
    foldl_insertOnce, List.singleton_append]
  simp

theorem nodup_distinct (xs : List α) : (distinct xs).Nodup := by
  induction xs with
  | nil => exact List.nodup_nil
  | cons x xs ih =>
    rw [distinct_cons, List.nodup_cons]
    exact ⟨by simp, ih.filter _⟩

@[simp] theorem mem_distinct : a ∈ distinct xs ↔ a ∈ xs := by
  induction xs with
  | nil => exact Iff.rfl
  | cons x xs ih =>
    rw [distinct_cons, List.mem_cons, List.mem_cons, List.mem_filter, ih, decide_eq_true_eq]
    by_cases hx : a = x <;> simp [hx]

/-- A list has the members of another one in the order in which they first occur there. -/
structure FirstOccurrences (firsts xs : List α) : Prop where
  mem_iff : ∀ a, a ∈ firsts ↔ a ∈ xs
  ordered : firsts.Pairwise fun a b => xs.idxOf a < xs.idxOf b

theorem firstOccurrences_distinct (xs : List α) : FirstOccurrences (distinct xs) xs where
  mem_iff _ := mem_distinct
  ordered := by
    induction xs with
    | nil => exact List.Pairwise.nil
    | cons x xs ih =>
      have hidx {b : α} (hb : b ∈ (distinct xs).filter (· ≠ x)) :
          (x :: xs).idxOf b = xs.idxOf b + 1 := by
        have hne := of_decide_eq_true (List.mem_filter.mp hb).2
        exact List.idxOf_cons_ne _ (Ne.symm hne)
      rw [distinct_cons, List.pairwise_cons]
      refine ⟨fun b hb => ?_, (ih.filter _).imp_of_mem fun {b c} hb hc hbc => ?_⟩
      · rw [List.idxOf_cons_self, hidx hb]
        exact Nat.succ_pos _
      · rw [hidx hb, hidx hc]
        exact Nat.succ_lt_succ hbc

end Distinct

end ChangeImpact.Ordered
