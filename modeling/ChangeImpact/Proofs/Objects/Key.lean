import ChangeImpact.Objects.Key
import Mathlib.Data.List.Basic

/-!
# Keys do not collide

The key of an uploaded file and that of a revision are put together from names with slashes
in between. Where the names of projects and revisions have no slashes themselves, a key
tells what it was put together from.
-/

namespace ChangeImpact

section Key

variable {p q a b x y : String}

theorem toList_fileKey (p x : String) :
    (fileKey p x).toList =
      "projects/".toList ++ (p.toList ++ '/' :: ("files/".toList ++ x.toList)) := by
  simp only [fileKey, String.toList_append, List.append_assoc]
  rfl

theorem toList_revisionKey (p a x : String) :
    (revisionKey p a x).toList =
      "projects/".toList ++
        (p.toList ++ '/' :: ("revisions/".toList ++ (a.toList ++ '/' :: x.toList))) := by
  simp only [revisionKey, String.toList_append, List.append_assoc]
  rfl

/-- Of two names before the first slash none is longer. -/
private theorem eq_nil_of_append {u s t : List Char} {name : String} {start : List Char}
    (hname : '/' ∉ name.toList) (hu : name.toList = start ++ u) (h : '/' :: s = u ++ '/' :: t) :
    u = [] := by
  cases u with
  | nil => rfl
  | cons c u =>
    rw [← (List.cons.inj h).1] at hu
    exact absurd (hu ▸ List.mem_append_right _ (List.mem_cons_self ..)) hname

private theorem eq_and_eq_of_append_slash {s t : List Char} (hp : '/' ∉ p.toList)
    (hq : '/' ∉ q.toList) (h : p.toList ++ '/' :: s = q.toList ++ '/' :: t) : p = q ∧ s = t := by
  rcases List.append_eq_append_iff.mp h with ⟨u, hqu, hu⟩ | ⟨u, hpu, hu⟩
  · obtain rfl := eq_nil_of_append hq hqu hu
    rw [List.append_nil] at hqu
    exact ⟨String.toList_injective hqu.symm, (List.cons.inj hu).2⟩
  · obtain rfl := eq_nil_of_append hp hpu hu
    rw [List.append_nil] at hpu
    exact ⟨String.toList_injective hpu, (List.cons.inj hu).2.symm⟩

/-- Revisions without a slash in their names have keys of their own. -/
theorem revision_eq_of_revisionKey_eq (ha : '/' ∉ a.toList) (hb : '/' ∉ b.toList)
    (h : revisionKey p a x = revisionKey p b y) : a = b := by
  have hlist := congrArg String.toList h
  rw [toList_revisionKey, toList_revisionKey, List.append_cancel_left_eq,
    List.append_cancel_left_eq, List.cons_inj_right, List.append_cancel_left_eq] at hlist
  exact (eq_and_eq_of_append_slash ha hb hlist).1

theorem fileKey_inj (hp : '/' ∉ p.toList) (hq : '/' ∉ q.toList) (h : fileKey p x = fileKey q y) :
    p = q ∧ x = y := by
  have hlist := congrArg String.toList h
  rw [toList_fileKey, toList_fileKey, List.append_cancel_left_eq] at hlist
  obtain ⟨hpq, hxy⟩ := eq_and_eq_of_append_slash hp hq hlist
  exact ⟨hpq, String.toList_injective (List.append_cancel_left hxy)⟩

theorem revisionKey_inj (hp : '/' ∉ p.toList) (hq : '/' ∉ q.toList) (ha : '/' ∉ a.toList)
    (hb : '/' ∉ b.toList) (h : revisionKey p a x = revisionKey q b y) : p = q ∧ a = b ∧ x = y := by
  have hlist := congrArg String.toList h
  rw [toList_revisionKey, toList_revisionKey, List.append_cancel_left_eq] at hlist
  obtain ⟨hpq, hrest⟩ := eq_and_eq_of_append_slash hp hq hlist
  obtain ⟨hab, hxy⟩ := eq_and_eq_of_append_slash ha hb (List.append_cancel_left hrest)
  exact ⟨hpq, hab, String.toList_injective hxy⟩

/-- An uploaded file and a revision never share a key. -/
theorem fileKey_ne_revisionKey (hp : '/' ∉ p.toList) (hq : '/' ∉ q.toList) :
    fileKey p x ≠ revisionKey q a y := by
  intro h
  have hlist := congrArg String.toList h
  rw [toList_fileKey, toList_revisionKey, List.append_cancel_left_eq] at hlist
  cases (eq_and_eq_of_append_slash hp hq hlist).2

theorem revisionKey_ne_fileKey (project revision x y : String) :
    revisionKey project revision x ≠ fileKey project y := by
  intro h
  have hlist := congrArg String.toList h
  rw [toList_fileKey, toList_revisionKey, List.append_cancel_left_eq,
    List.append_cancel_left_eq] at hlist
  cases hlist

/-- Where the names of projects and revisions have no slashes, no key is that of two files, that of
two revisions, or that of a file and of a revision, whatever the slashes in their paths. -/
theorem keys_apart (hp : '/' ∉ p.toList) (hq : '/' ∉ q.toList) :
    (∀ x y, fileKey p x = fileKey q y ↔ p = q ∧ x = y) ∧
      (∀ a b, '/' ∉ a.toList → '/' ∉ b.toList → ∀ x y,
        revisionKey p a x = revisionKey q b y ↔ p = q ∧ a = b ∧ x = y) ∧
      ∀ a x y, fileKey p x ≠ revisionKey q a y := by
  refine ⟨fun x y => ⟨fileKey_inj hp hq, ?_⟩, fun a b ha hb x y =>
    ⟨revisionKey_inj hp hq ha hb, ?_⟩, fun a x y => fileKey_ne_revisionKey hp hq⟩
  · rintro ⟨rfl, rfl⟩
    rfl
  · rintro ⟨rfl, rfl, rfl⟩
    rfl

/-- Paths that hold the names of revisions, or parts of them, do not bring keys together. -/
theorem sample_keys_apart :
    ('/' ∉ "shop".toList ∧ '/' ∉ "d1".toList ∧ '/' ∉ "d2".toList) ∧
      fileKey "shop" "src//app.ts" ≠ fileKey "shop" "src/app.ts" ∧
      revisionKey "shop" "d1" "d2/app.ts" ≠ revisionKey "shop" "d2" "app.ts" ∧
      fileKey "shop" "../revisions/d1/app.ts" ≠ revisionKey "shop" "d1" "app.ts" := by
  have hshop : '/' ∉ "shop".toList := by decide
  have hd1 : '/' ∉ "d1".toList := by decide
  have hd2 : '/' ∉ "d2".toList := by decide
  obtain ⟨hfiles, hrevisions, hkinds⟩ := keys_apart hshop hshop
  refine ⟨⟨hshop, hd1, hd2⟩, fun h => ?_, fun h => ?_, hkinds _ _ _⟩
  · exact absurd ((hfiles _ _).mp h).2 (by decide)
  · exact absurd ((hrevisions _ _ hd1 hd2 _ _).mp h).2.1 (by decide)

end Key

end ChangeImpact
