import ChangeImpact.Objects.Directory
import ChangeImpact.Proofs.Path.Normal
import Mathlib.Data.List.Infix

/-!
# Where keys lead

A key that an object directory accepts leads to a place below the root, by plain names. On the
way there it never steps out of the root. Two accepted keys that lead to one place are the
same key unless one of them has empty or `.` components.
-/

namespace ChangeImpact

namespace ObjectDirectory

variable {key key' : String} {p : ObjectPath}

/-! ## Accepted keys -/

/-- Whether a component of a key names something. -/
def isName (component : String) : Bool := component ≠ "" ∧ component ≠ "."

/-- What is known of a key that is accepted: it starts with a name, never goes up, and leads
along its names. -/
structure Accepted (key : String) (parts : List String) : Prop where
  parts_eq : parts = (Path.segments key).filter isName
  head : isName ((Path.segments key).headD "") = true
  noParent : ".." ∉ Path.segments key

theorem accepted_of_pathOf (h : pathOf key = .ok p) : Accepted key p.parts := by
  rw [pathOf] at h
  split_ifs at h with hrefused
  cases h
  refine ⟨rfl, ?_, fun hdots => ?_⟩
  · have hhead : ¬ (Path.segments key).headD "" = "" ∧ ¬ (Path.segments key).headD "" = "." :=
      ⟨fun h => hrefused (.inl h), fun h => hrefused (.inr (.inl h))⟩
    exact decide_eq_true hhead
  · have hparts := List.mem_filter.mpr ⟨hdots, (by decide : isName ".." = true)⟩
    exact hrefused (.inr (.inr (List.contains_iff_mem.mpr hparts)))

theorem eq_storage_of_pathOf {e : Failure} (h : pathOf key = .error e) :
    e = .storage ("invalid object key " ++ Text.quoted key) := by
  rw [pathOf] at h
  split_ifs at h
  cases h
  rfl

theorem Accepted.ne_nil {parts : List String} (h : Accepted key parts) : parts ≠ [] := by
  have hhead := h.head
  rw [h.parts_eq]
  cases hsegments : Path.segments key with
  | nil =>
    rw [hsegments] at hhead
    exact absurd hhead (by decide)
  | cons c components =>
    rw [hsegments, List.headD_cons] at hhead
    rw [List.filter_cons_of_pos hhead]
    exact List.cons_ne_nil _ _

/-- The key is refused or made of names, without empty or `.` components. -/
def Canonical (key : String) : Prop :=
  ∀ p, pathOf key = .ok p → ∀ component ∈ Path.segments key, isName component = true

/-- Only the components that name nothing can tell apart keys that lead to one place. -/
theorem eq_of_pathOf_eq (hkey : Canonical key) (hkey' : Canonical key') (h : pathOf key = .ok p)
    (h' : pathOf key' = .ok p) : key = key' := by
  have hparts := List.filter_eq_self.mpr (hkey p h)
  have hparts' := List.filter_eq_self.mpr (hkey' p h')
  rw [← (accepted_of_pathOf h).parts_eq] at hparts
  rw [← (accepted_of_pathOf h').parts_eq] at hparts'
  exact Text.pieces_inj (hparts.symm.trans hparts')

/-! ## The way of a key -/

/-- Where the components of a path lead from a directory. -/
def walked (start : List String) (components : List String) : List String :=
  (components.foldl Path.push start.reverse).reverse

/-- Where the path of a key starts when it is looked up below a root: an absolute one starts
elsewhere. -/
def startOf (root : List String) (key : String) : List String :=
  if Text.startsWith key "/" then [] else root

/-- Without `..` a way leads down along its names. -/
theorem walked_of_notMem {components : List String} (h : ".." ∉ components)
    (start : List String) : walked start components = start ++ components.filter isName := by
  rw [walked, Path.foldl_push_of_notMem h, List.reverse_append, List.reverse_reverse,
    List.reverse_reverse]
  rfl

/-- A key that starts with a name is relative. -/
theorem Accepted.startOf_eq {parts : List String} (h : Accepted key parts) (root : List String) :
    startOf root key = root := by
  refine if_neg fun habsolute => ?_
  obtain ⟨rest, hrest⟩ := List.isPrefixOf_iff_prefix.mp habsolute
  have hhead : (Path.segments key).headD "" = "" := by
    rw [Path.segments, Text.pieces, ← hrest]
    rfl
  rw [← Bool.false_eq_true, ← h.head, hhead]
  rfl

/-- The way to an accepted key ends at its place and stays inside the root all along. -/
theorem Accepted.walked_eq {parts : List String} (h : Accepted key parts) (root : List String) :
    walked (startOf root key) (Path.segments key) = root ++ parts := by
  rw [h.startOf_eq, walked_of_notMem h.noParent, ← h.parts_eq]

theorem Accepted.walked_inside {parts : List String} (h : Accepted key parts) (root : List String)
    {components : List String} (hway : components <+: Path.segments key) :
    root <+: walked (startOf root key) components := by
  rw [h.startOf_eq, walked_of_notMem fun hdots => h.noParent (hway.subset hdots)]
  exact List.prefix_append ..

end ObjectDirectory

end ChangeImpact
