import ChangeImpact.Store.Tables
import Mathlib.Data.List.Forall2
import Mathlib.Data.List.Nodup

/-!
# Keys and references of rows

A table is a list of rows. `Keyed` says that a column, or several together, tells
the rows apart, and `Refers` that what a column names is a row of another table.
Both are kept by adding rows that respect them and by updates that leave the
columns alone.
-/

namespace ChangeImpact.Store

variable {α β κ : Type}

/-- No two rows have the same key. -/
def Keyed (key : α → κ) (rows : List α) : Prop := (rows.map key).Nodup

/-- Whatever the rows refer to is the key of a target. -/
def Refers (ref : α → Option κ) (rows : List α) (key : β → κ) (targets : List β) : Prop :=
  ∀ r ∈ rows, ∀ k, ref r = some k → ∃ t ∈ targets, key t = k

/-- An update touches exactly the rows that satisfy its condition. -/
theorem mem_updateWhere {p : α → Bool} {f : α → α} {rows : List α} {b : α} :
    b ∈ updateWhere p f rows ↔ ∃ a ∈ rows, (if p a then f a else a) = b := by
  simp only [updateWhere, List.mem_map]

/-- An update that keeps a column keeps the list of its values. -/
theorem map_updateWhere {p : α → Bool} {f : α → α} {g : α → κ}
    (hf : ∀ a, p a = true → g (f a) = g a) (rows : List α) :
    (updateWhere p f rows).map g = rows.map g := by
  rw [updateWhere, List.map_map]
  apply List.map_congr_left
  intro a _
  by_cases hp : p a = true
  · simp only [Function.comp_apply, hp, if_true, hf a hp]
  · simp only [Function.comp_apply, hp, if_false, Bool.false_eq_true]

/-- An update changes nothing exactly when it changes none of the rows that it touches. -/
theorem updateWhere_eq_self_iff {p : α → Bool} {f : α → α} {rows : List α} :
    updateWhere p f rows = rows ↔ ∀ a ∈ rows, p a = true → f a = a := by
  rw [updateWhere]
  conv_lhs => rhs; rw [← List.map_id rows]
  rw [List.map_inj_left]
  refine forall₂_congr fun a _ => ?_
  by_cases hp : p a = true
  · rw [if_pos hp, forall_prop_of_true hp, id_eq]
  · rw [if_neg hp, forall_prop_of_false hp, id_eq, eq_self]

/-- An update without any row to touch changes nothing. -/
theorem updateWhere_eq_self {p : α → Bool} {f : α → α} {rows : List α}
    (hp : ∀ a ∈ rows, p a = false) : updateWhere p f rows = rows :=
  updateWhere_eq_self_iff.mpr fun a ha h => absurd h (by rw [hp a ha]; exact Bool.false_ne_true)

/-- Every row with a property is changed in a given way, and all others stay as they are. -/
def Rewrites (p : α → Prop) (change : α → α) (rows rows' : List α) : Prop :=
  List.Forall₂ (fun a b => p a ∧ b = change a ∨ ¬p a ∧ b = a) rows rows'

theorem rewrites_map {p : α → Prop} {change g : α → α} {rows : List α}
    (h : ∀ a ∈ rows, p a ∧ g a = change a ∨ ¬p a ∧ g a = a) :
    Rewrites p change rows (rows.map g) :=
  List.forall₂_map_right_iff.mpr (List.forall₂_same.mpr h)

theorem rewrites_updateWhere {p : α → Prop} {q : α → Bool} {change : α → α} {rows : List α}
    (h : ∀ a ∈ rows, q a = true ↔ p a) : Rewrites p change rows (updateWhere q change rows) := by
  refine rewrites_map fun a ha => ?_
  by_cases hq : q a = true
  · rw [if_pos hq]
    exact Or.inl ⟨(h a ha).mp hq, rfl⟩
  · rw [if_neg hq]
    exact Or.inr ⟨fun hp => hq ((h a ha).mpr hp), rfl⟩

/-- Updates that go for the same rows and do the same to them are the same. -/
theorem updateWhere_congr {p q : α → Bool} {f g : α → α} {rows : List α}
    (hp : ∀ r ∈ rows, p r = q r) (hf : ∀ r ∈ rows, p r = true → f r = g r) :
    updateWhere p f rows = updateWhere q g rows := by
  rw [updateWhere, updateWhere]
  apply List.map_congr_left
  intro r hr
  by_cases h : p r = true
  · rw [if_pos h, if_pos (hp r hr ▸ h), hf r hr h]
  · rw [if_neg h, if_neg (hp r hr ▸ h)]

/-- An update of the rows of a kind is the update of all rows, as long as it does not change
which rows are of the kind. -/
theorem filter_updateWhere_comm {p q : α → Bool} {f : α → α} (hf : ∀ a, q (f a) = q a)
    (rows : List α) : (updateWhere p f rows).filter q = updateWhere p f (rows.filter q) := by
  have hq (a : α) : q (if p a then f a else a) = q a := by
    split
    · exact hf a
    · rfl
  rw [updateWhere, List.filter_map, show q ∘ (fun a => if p a then f a else a) = q from funext hq]
  rfl

/-- Of the updated rows, those that an update goes for are the updated ones of the old. -/
theorem filter_updateWhere {p : α → Bool} {f : α → α} (hf : ∀ a, p (f a) = p a) (rows : List α) :
    (updateWhere p f rows).filter p = (rows.filter p).map f := by
  rw [filter_updateWhere_comm hf]
  exact List.map_congr_left fun a ha => if_pos (List.mem_filter.mp ha).2

/-- Rows of a kind that an update neither goes for nor brings about are the old ones. -/
theorem filter_updateWhere_of_not {p q : α → Bool} {f : α → α} {rows : List α}
    (hf : ∀ a, q (f a) = q a) (h : ∀ a ∈ rows, p a = true → q a = false) :
    (updateWhere p f rows).filter q = rows.filter q := by
  rw [filter_updateWhere_comm hf]
  refine updateWhere_eq_self fun a ha => Bool.eq_false_iff.mpr fun hp => ?_
  obtain ⟨hmem, hqa⟩ := List.mem_filter.mp ha
  rw [h a hmem hp] at hqa
  cases hqa

/-- What an update does to a column. -/
theorem map_updateWhere_comm {p : α → Bool} {f : α → α} {q : κ → Bool} {g : κ → κ} {col : α → κ}
    {rows : List α} (hp : ∀ a ∈ rows, q (col a) = p a)
    (hf : ∀ a ∈ rows, p a = true → col (f a) = g (col a)) :
    (updateWhere p f rows).map col = updateWhere q g (rows.map col) := by
  rw [updateWhere, updateWhere, List.map_map, List.map_map]
  refine List.map_congr_left fun a ha => ?_
  by_cases h : p a = true
  · simp only [Function.comp_apply, hp a ha, h, if_true, hf a ha h]
  · simp only [Function.comp_apply, hp a ha, h, if_false, Bool.false_eq_true]

/-- The rows that an update does not go for are the old ones. -/
theorem filter_not_updateWhere {p : α → Bool} {f : α → α} (hf : ∀ a, p (f a) = p a)
    (rows : List α) : (updateWhere p f rows).filter (!p ·) = rows.filter (!p ·) :=
  filter_updateWhere_of_not (fun a => by rw [hf a]) fun a _ hp => by rw [hp]; rfl

/-- New rows of a kind of their own are told from the old ones. -/
theorem filter_append_new {p : α → Bool} {rows new : List α} (hold : ∀ a ∈ rows, p a = false)
    (hnew : ∀ a ∈ new, p a = true) :
    (rows ++ new).filter p = new ∧ (rows ++ new).filter (!p ·) = rows := by
  rw [List.filter_append, List.filter_append]
  constructor
  · rw [List.filter_eq_nil_iff.mpr fun a ha => Bool.not_eq_true _ ▸ hold a ha, List.nil_append,
      List.filter_eq_self.mpr hnew]
  · rw [List.filter_eq_self.mpr fun a ha => by rw [hold a ha]; rfl,
      List.filter_eq_nil_iff.mpr fun a ha => by rw [hnew a ha]; exact Bool.false_ne_true,
      List.append_nil]

/-- Updates one after the other act on each row alone. -/
theorem foldl_updateWhere {p : β → α → Bool} {f : β → α → α} (xs : List β) (rows : List α) :
    xs.foldl (fun rows x => updateWhere (p x) (f x) rows) rows =
      rows.map fun r => xs.foldl (fun r x => if p x r then f x r else r) r := by
  induction xs generalizing rows with
  | nil => exact (List.map_id rows).symm
  | cons x xs ih =>
    rw [List.foldl_cons, ih, updateWhere, List.map_map]
    rfl

/-- An update writes no row exactly when it goes for none. -/
theorem countP_eq_zero_iff {p : α → Bool} {rows : List α} :
    rows.countP p = 0 ↔ rows.any p = false := by
  rw [List.countP_eq_zero, List.any_eq_false]

/-- An update of no rows changes nothing. -/
theorem updateWhere_of_countP_eq_zero {p : α → Bool} {f : α → α} {rows : List α}
    (h : rows.countP p = 0) : updateWhere p f rows = rows :=
  updateWhere_eq_self fun a ha => Bool.eq_false_iff.mpr (List.countP_eq_zero.mp h a ha)

/-- Nothing is to be repaired where every cell can be read. -/
theorem mend_eq_self {s : Store} (h : s.damaged = []) (c : Column) (p : String → Bool) :
    s.mend c p = s := by
  rw [mend, h, List.filter_nil, ← h]

/-- Rows that were found for the rows on the left, one for each, and from which the rows on the
right come. -/
theorem exists_pairs_of_forall₂ {γ : Type} {P : γ → α → Prop} {g : γ → α → β} {as : List α}
    {bs : List β} (h : List.Forall₂ (fun a b => ∃ c, P c a ∧ b = g c a) as bs) :
    ∃ pairs : List (γ × α), pairs.map (·.2) = as ∧ bs = pairs.map (fun x => g x.1 x.2) ∧
      ∀ x ∈ pairs, P x.1 x.2 := by
  induction h with
  | nil => exact ⟨[], rfl, rfl, fun x hx => absurd hx List.not_mem_nil⟩
  | @cons a _ as _ hab _ ih =>
    obtain ⟨c, hc, rfl⟩ := hab
    obtain ⟨pairs, rfl, rfl, hpairs⟩ := ih
    exact ⟨(c, a) :: pairs, rfl, rfl, List.forall_mem_cons.mpr ⟨hc, hpairs⟩⟩

/-- Each of the rows on the right corresponds to one on the left. -/
theorem exists_left_of_forall₂ {R : α → β → Prop} {as : List α} {bs : List β}
    (h : List.Forall₂ R as bs) {b : β} (hb : b ∈ bs) : ∃ a ∈ as, R a b := by
  induction h with
  | nil => cases hb
  | cons hab _ ih =>
    rcases List.mem_cons.mp hb with rfl | hb
    · exact ⟨_, List.mem_cons_self .., hab⟩
    · obtain ⟨a, ha, hr⟩ := ih hb
      exact ⟨a, List.mem_cons_of_mem _ ha, hr⟩

/-- Each of the rows on the left corresponds to one on the right. -/
theorem exists_right_of_forall₂ {R : α → β → Prop} {as : List α} {bs : List β}
    (h : List.Forall₂ R as bs) {a : α} (ha : a ∈ as) : ∃ b ∈ bs, R a b :=
  exists_left_of_forall₂ (R := flip R) h.flip ha

/-- Columns that agree on corresponding rows have the same values. -/
theorem map_eq_of_forall₂ {R : α → β → Prop} {f : α → κ} {g : β → κ} {as : List α} {bs : List β}
    (h : List.Forall₂ R as bs) (hR : ∀ a b, R a b → g b = f a) : bs.map g = as.map f := by
  induction h with
  | nil => rfl
  | cons hab _ ih => rw [List.map_cons, List.map_cons, hR _ _ hab, ih]

/-- Rows that correspond to corresponding rows correspond. -/
theorem forall₂_comp {γ : Type} {R : α → β → Prop} {S : β → γ → Prop} {T : α → γ → Prop}
    (hT : ∀ a b c, R a b → S b c → T a c) {as : List α} {bs : List β} {cs : List γ}
    (h : List.Forall₂ R as bs) (h' : List.Forall₂ S bs cs) : List.Forall₂ T as cs := by
  induction h generalizing cs with
  | nil =>
    cases h'
    exact .nil
  | cons hab _ ih =>
    cases h' with
    | cons hbc h' => exact .cons (hT _ _ _ hab hbc) (ih h')

namespace Keyed

variable {key : α → κ} {rows : List α}

theorem nil : Keyed key ([] : List α) := List.nodup_nil

theorem append (h : Keyed key rows) {a : α} (ha : ∀ r ∈ rows, key r ≠ key a) :
    Keyed key (rows ++ [a]) := by
  rw [Keyed, List.map_append, List.nodup_append]
  refine ⟨h, List.nodup_singleton _, ?_⟩
  intro x hx y hy
  obtain ⟨r, hr, rfl⟩ := List.mem_map.mp hx
  rw [List.map_singleton, List.mem_singleton] at hy
  exact hy ▸ ha r hr

/-- Rows that stand apart in a list have different keys. -/
theorem ne_of_append {more : List α} (h : Keyed key (rows ++ more)) {r a : α} (hr : r ∈ rows)
    (ha : a ∈ more) : key r ≠ key a := by
  rw [Keyed, List.map_append, List.nodup_append] at h
  exact h.2.2 _ (List.mem_map_of_mem hr) _ (List.mem_map_of_mem ha)

theorem updateWhere (h : Keyed key rows) {p : α → Bool} {f : α → α}
    (hf : ∀ a, p a = true → key (f a) = key a) : Keyed key (updateWhere p f rows) := by
  rw [Keyed, map_updateWhere hf]
  exact h

theorem filter (h : Keyed key rows) (p : α → Bool) : Keyed key (rows.filter p) :=
  List.Nodup.sublist (List.filter_sublist.map key) h

/-- Rows with the same key are the same row. -/
theorem eq_of_key_eq (h : Keyed key rows) {a b : α} (ha : a ∈ rows) (hb : b ∈ rows)
    (hk : key a = key b) : a = b :=
  List.inj_on_of_nodup_map h ha hb hk

/-- A row is the only one with its key. -/
theorem filter_eq_singleton [DecidableEq κ] (h : Keyed key rows) {a : α} (ha : a ∈ rows) :
    rows.filter (fun b => key b = key a) = [a] := by
  induction rows with
  | nil => cases ha
  | cons b rows ih =>
    have hn := List.nodup_cons.mp h
    rcases List.mem_cons.mp ha with rfl | ha
    · rw [List.filter_cons, if_pos (decide_eq_true rfl), List.cons.injEq, List.filter_eq_nil_iff]
      refine ⟨rfl, fun c hc hk => hn.1 ?_⟩
      rw [← of_decide_eq_true hk]
      exact List.mem_map_of_mem hc
    · have hne : key b ≠ key a := fun hk => hn.1 (hk ▸ List.mem_map_of_mem ha)
      rw [List.filter_cons_of_neg (by simp [hne])]
      exact ih hn.2 ha

/-- A row is found under its key. -/
theorem find?_eq_some_iff [DecidableEq κ] (h : Keyed key rows) {k : κ} {r : α} :
    rows.find? (fun a => key a = k) = some r ↔ r ∈ rows ∧ key r = k := by
  constructor
  · intro hf
    exact ⟨List.mem_of_find?_eq_some hf, by simpa using List.find?_some hf⟩
  · rintro ⟨hr, rfl⟩
    cases hf : rows.find? (fun a => key a = key r) with
    | none =>
      have hn := List.find?_eq_none.mp hf r hr
      simp at hn
    | some a =>
      have hk : key a = key r := by simpa using List.find?_some hf
      rw [h.eq_of_key_eq (List.mem_of_find?_eq_some hf) hr hk]

end Keyed

namespace Refers

variable {ref : α → Option κ} {rows : List α} {key : β → κ} {targets : List β}

theorem nil : Refers ref ([] : List α) key targets := by
  intro r hr
  cases hr

theorem append (h : Refers ref rows key targets) {a : α}
    (ha : ∀ k, ref a = some k → ∃ t ∈ targets, key t = k) :
    Refers ref (rows ++ [a]) key targets := by
  intro r hr
  rcases List.mem_append.mp hr with hr | hr
  · exact h r hr
  · rw [List.mem_singleton.mp hr]
    exact ha

theorem updateWhere (h : Refers ref rows key targets) {p : α → Bool} {f : α → α}
    (hf : ∀ a, p a = true → ref (f a) = ref a) :
    Refers ref (Store.updateWhere p f rows) key targets := by
  intro r hr k hk
  obtain ⟨a, ha, rfl⟩ := mem_updateWhere.mp hr
  refine h a ha k ?_
  by_cases hp : p a = true
  · rwa [if_pos hp, hf a hp] at hk
  · rwa [if_neg hp] at hk

/-- An update may also give the rows new references, as long as these lead somewhere. -/
theorem rewrite (h : Refers ref rows key targets) {p : α → Bool} {f : α → α}
    (hf : ∀ a, p a = true → ∀ k, ref (f a) = some k → ∃ t ∈ targets, key t = k) :
    Refers ref (Store.updateWhere p f rows) key targets := by
  intro r hr k hk
  obtain ⟨a, ha, rfl⟩ := mem_updateWhere.mp hr
  by_cases hp : p a = true
  · rw [if_pos hp] at hk
    exact hf a hp k hk
  · rw [if_neg hp] at hk
    exact h a ha k hk

theorem filter (h : Refers ref rows key targets) (p : α → Bool) :
    Refers ref (rows.filter p) key targets :=
  fun r hr => h r (List.mem_of_mem_filter hr)

/-- References survive as long as no target loses its key. -/
theorem mono (h : Refers ref rows key targets) {targets' : List β}
    (ht : ∀ t ∈ targets, ∃ t' ∈ targets', key t' = key t) : Refers ref rows key targets' := by
  intro r hr k hk
  obtain ⟨t, hm, rfl⟩ := h r hr k hk
  exact ht t hm

theorem append_targets (h : Refers ref rows key targets) (more : List β) :
    Refers ref rows key (targets ++ more) :=
  h.mono fun t ht => ⟨t, List.mem_append_left more ht, rfl⟩

theorem update_targets (h : Refers ref rows key targets) {p : β → Bool} {f : β → β}
    (hf : ∀ b, p b = true → key (f b) = key b) :
    Refers ref rows key (Store.updateWhere p f targets) := by
  refine h.mono fun t ht => ⟨_, mem_updateWhere.mpr ⟨t, ht, rfl⟩, ?_⟩
  by_cases hp : p t = true
  · rw [if_pos hp, hf t hp]
  · rw [if_neg hp]

end Refers

end ChangeImpact.Store
