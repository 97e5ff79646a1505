import ChangeImpact.Path
import ChangeImpact.Proofs.Text.Pieces

/-!
# Normal forms of paths

A path in normal form is empty or has names between its slashes. Normalising leaves such a path
alone and brings every other one into this form. Which path results depends on the front part
through its normal form only, and a part behind it that never goes up adds its own names.
-/

namespace ChangeImpact.Path

/-- A segment that names a file or a directory. -/
def IsName (segment : String) : Prop := segment ≠ "" ∧ segment ≠ "." ∧ segment ≠ ".."

/-- A path without segments, or with names only. -/
def IsNormal (path : String) : Prop := path = "" ∨ ∀ segment ∈ segments path, IsName segment

/-- The names along a path in normal form; the empty path has none. -/
def names (path : String) : List String := if path = "" then [] else segments path

variable {path segment : String} {parts stack : List String}

/-! ## Segments -/

theorem segments_append (a b : String) : segments (a ++ "/" ++ b) = segments a ++ segments b :=
  Text.pieces_append '/' a b

theorem segments_ne_nil (path : String) : segments path ≠ [] :=
  Text.pieces_ne_nil '/' path

theorem join_segments (path : String) : join (segments path) = path :=
  Text.intercalate_pieces '/' path

theorem slash_notMem (h : segment ∈ segments path) : '/' ∉ segment.toList :=
  Text.notMem_of_mem_pieces h

theorem segments_join (hne : parts ≠ []) (h : ∀ part ∈ parts, '/' ∉ part.toList) :
    segments (join parts) = parts :=
  Text.pieces_intercalate hne h

theorem join_names (path : String) : join (names path) = path := by
  rw [names]
  split
  · next h => exact h.symm
  · exact join_segments path

/-- Joined names are read back. -/
theorem names_join (hname : ∀ part ∈ parts, part ≠ "") (h : ∀ part ∈ parts, '/' ∉ part.toList) :
    names (join parts) = parts := by
  cases parts with
  | nil => rfl
  | cons part parts =>
    have hne : join (part :: parts) ≠ "" := by
      intro he
      have hs := segments_join (List.cons_ne_nil part parts) h
      rw [he] at hs
      exact hname part (List.mem_cons_self ..) (List.cons.inj hs).1.symm
    rw [names, if_neg hne, segments_join (List.cons_ne_nil part parts) h]

/-! ## The stack of names -/

/-- What is on the stack was there before or is a name that was pushed. -/
theorem mem_push (h : segment ∈ push stack path) :
    segment ∈ stack ∨ segment = path ∧ IsName segment := by
  rw [push] at h
  split_ifs at h with hempty hup
  · exact Or.inl h
  · exact Or.inl (List.mem_of_mem_tail h)
  · rcases List.mem_cons.mp h with rfl | h
    · exact Or.inr ⟨rfl, fun he => hempty (.inl he), fun he => hempty (.inr he), hup⟩
    · exact Or.inl h

theorem mem_foldl_push (h : segment ∈ parts.foldl push stack) :
    segment ∈ stack ∨ segment ∈ parts ∧ IsName segment := by
  induction parts generalizing stack with
  | nil => exact Or.inl h
  | cons part parts ih =>
    rcases ih h with h | ⟨hmem, hname⟩
    · exact (mem_push h).imp_right fun ⟨he, hname⟩ => ⟨he ▸ List.mem_cons_self .., hname⟩
    · exact Or.inr ⟨List.mem_cons_of_mem _ hmem, hname⟩

/-- Without `..` the stack grows by the segments that are not left out. -/
theorem foldl_push_of_notMem (h : ".." ∉ parts) (stack : List String) :
    parts.foldl push stack = (parts.filter fun s => s ≠ "" ∧ s ≠ ".").reverse ++ stack := by
  induction parts generalizing stack with
  | nil => rfl
  | cons part parts ih =>
    rw [List.mem_cons, not_or] at h
    rw [List.foldl_cons, ih h.2, push]
    by_cases hempty : part = "" ∨ part = "."
    · have hleft : ¬(part ≠ "" ∧ part ≠ ".") := fun hkept => hempty.elim hkept.1 hkept.2
      rw [if_pos hempty, List.filter_cons, if_neg (by rwa [decide_eq_true_eq])]
    · have hkept : part ≠ "" ∧ part ≠ "." := not_or.mp hempty
      rw [if_neg hempty, if_neg (Ne.symm h.1), List.filter_cons,
        if_pos (by rwa [decide_eq_true_eq]), List.reverse_cons, List.append_assoc,
        List.singleton_append]

/-! ## Segments that remain -/

theorem mem_resolved (h : segment ∈ resolved path) : segment ∈ segments path ∧ IsName segment :=
  (mem_foldl_push (List.mem_reverse.mp h)).resolve_left List.not_mem_nil

/-- What stands behind a slash is applied to what remains of the front. -/
theorem resolved_append (a b : String) :
    resolved (a ++ "/" ++ b) = ((segments b).foldl push (resolved a).reverse).reverse := by
  rw [resolved, segments_append, List.foldl_append, resolved, List.reverse_reverse]

theorem resolved_of_notMem (h : ".." ∉ segments path) :
    resolved path = (segments path).filter fun s => s ≠ "" ∧ s ≠ "." := by
  rw [resolved, foldl_push_of_notMem h, List.append_nil, List.reverse_reverse]

/-- A part that never goes up adds its own names. -/
theorem resolved_append_of_notMem (a : String) {b : String} (h : ".." ∉ segments b) :
    resolved (a ++ "/" ++ b) = resolved a ++ resolved b := by
  rw [resolved_append, foldl_push_of_notMem h, resolved_of_notMem h, List.reverse_append,
    List.reverse_reverse, List.reverse_reverse]

/-! ## Normal forms -/

theorem names_normalize (path : String) : names (normalize path) = resolved path :=
  names_join (fun _ h => (mem_resolved h).2.1) fun _ h => slash_notMem (mem_resolved h).1

theorem isNormal_iff : IsNormal path ↔ ∀ segment ∈ names path, IsName segment := by
  rw [IsNormal, names]
  split
  · next h => simp [h]
  · next h => exact or_iff_right h

theorem isNormal_normalize (path : String) : IsNormal (normalize path) := by
  rw [isNormal_iff, names_normalize]
  exact fun _ h => (mem_resolved h).2

/-- A path in normal form never goes up. -/
theorem IsNormal.parent_notMem (h : IsNormal path) : ".." ∉ segments path := by
  rcases h with rfl | h
  · rw [segments, Text.pieces_of_notMem (by simp), List.mem_singleton]
    decide
  · exact fun hup => (h _ hup).2.2 rfl

/-- Of a path in normal form everything remains. -/
theorem IsNormal.resolved_eq (h : IsNormal path) : resolved path = names path := by
  have hup := h.parent_notMem
  rw [isNormal_iff, names] at h
  rw [names]
  split
  · next he => rw [he]; rfl
  · next he =>
    rw [if_neg he] at h
    rw [resolved_of_notMem hup, List.filter_eq_self]
    exact fun segment hs => decide_eq_true ⟨(h segment hs).1, (h segment hs).2.1⟩

/-- The paths that normalising leaves alone are those in normal form. -/
theorem normalize_eq_self_iff : normalize path = path ↔ IsNormal path := by
  constructor
  · exact fun h => h ▸ isNormal_normalize path
  · intro h
    rw [normalize, h.resolved_eq, join_names]

theorem resolved_normalize (path : String) : resolved (normalize path) = resolved path := by
  rw [(isNormal_normalize path).resolved_eq, names_normalize]

/-- The front part counts through its normal form only. -/
theorem normalize_append_congr {a a' : String} (h : normalize a = normalize a') (b : String) :
    normalize (a ++ "/" ++ b) = normalize (a' ++ "/" ++ b) := by
  rw [normalize, normalize, resolved_append, resolved_append, ← resolved_normalize a, h,
    resolved_normalize]

/-- Normalising brings a path into normal form, leaves normal forms alone, does so a second
time, may be applied to the front part beforehand, and adds the names of a part behind that
never goes up. -/
theorem normalize_canonical (a b : String) :
    IsNormal (normalize a) ∧ (normalize a = a ↔ IsNormal a) ∧
      normalize (normalize a) = normalize a ∧
      normalize (a ++ "/" ++ b) = normalize (normalize a ++ "/" ++ b) ∧
      (".." ∉ segments b →
        normalize (a ++ "/" ++ b) = join (names (normalize a) ++ names (normalize b))) := by
  have hagain : normalize (normalize a) = normalize a :=
    normalize_eq_self_iff.mpr (isNormal_normalize a)
  refine ⟨isNormal_normalize a, normalize_eq_self_iff, hagain,
    normalize_append_congr hagain.symm b, fun h => ?_⟩
  rw [names_normalize, names_normalize, ← resolved_append_of_notMem a h, normalize]

/-- The front part loses a name to its own `..`, the part behind keeps all of its names. -/
theorem sample_normalize :
    ".." ∉ segments "./lib//price.ts" ∧
      normalize ("src/old/.." ++ "/" ++ "./lib//price.ts") =
        join (names (normalize "src/old/..") ++ names (normalize "./lib//price.ts")) ∧
      names (normalize "./lib//price.ts") = ["lib", "price.ts"] :=
  have h : ".." ∉ segments "./lib//price.ts" := by decide +kernel
  ⟨h, (normalize_canonical _ _).2.2.2.2 h, by decide +kernel⟩

end ChangeImpact.Path
