import ChangeImpact.Syntax.Tree

/-!
# Nodes in their tree

A `Node` is a subtree together with its surroundings: for each enclosing tree,
that tree and the siblings before the place. So a node knows its children, its
parent and the siblings in front of it. `Node.walk` visits a tree with an
explicit stack.
-/

namespace ChangeImpact.Syntax

/-- One step up from a subtree. -/
structure Crumb where
  /-- The enclosing tree. -/
  parent : Tree
  /-- The siblings before the subtree, the nearest first. -/
  before : List Tree
deriving Inhabited

/-- A subtree and where it lies. -/
structure Node where
  /-- The subtree. -/
  tree : Tree
  /-- The way up to the root, the nearest step first. -/
  above : List Crumb
deriving Inhabited

namespace Node

/-- The root of a tree. -/
def ofTree (t : Tree) : Node := ⟨t, []⟩

/-- The grammar kind. -/
def kind (n : Node) : String := n.tree.kind

/-- The nodes of a list of siblings that follow `before` under `parent`. -/
def siblings (parent : Tree) (above : List Crumb) : List Tree → List Tree → List Node
  | _, [] => []
  | before, t :: ts => ⟨t, ⟨parent, before⟩ :: above⟩ :: siblings parent above (t :: before) ts

/-- The children in source order. -/
def children (n : Node) : List Node :=
  siblings n.tree n.above [] n.tree.children

/-- The node that encloses this one directly. -/
def parent? (n : Node) : Option Node :=
  match n.above with
  | [] => none
  | crumb :: above => some ⟨crumb.parent, above⟩

/-- All enclosing nodes, the nearest first. -/
def ancestorsAlong : List Crumb → List Node
  | [] => []
  | crumb :: above => ⟨crumb.parent, above⟩ :: ancestorsAlong above

/-- All enclosing nodes, the nearest first. -/
def ancestors (n : Node) : List Node :=
  ancestorsAlong n.above

/-- The named siblings before the node, the nearest first. -/
def earlierNamed (n : Node) : List Tree :=
  match n.above with
  | [] => []
  | crumb :: _ => crumb.before.filter (·.named)

/-- The nearest enclosing node of one of the kinds. -/
def enclosing (n : Node) (kinds : List String) : Option Node :=
  n.ancestors.find? fun a => kinds.contains a.kind

/-- An enclosing node has less around it. -/
theorem length_above_of_mem_ancestors {n a : Node} (h : a ∈ n.ancestors) :
    a.above.length < n.above.length := by
  obtain ⟨t, above⟩ := n
  simp only [ancestors] at h ⊢
  induction above with
  | nil => cases h
  | cons crumb above ih =>
    rcases List.mem_cons.mp h with rfl | h
    · exact Nat.lt_succ_self _
    · exact Nat.lt_succ_of_lt (ih h)

/-- The name of the nearest enclosing node of one of the kinds; one without a name field is
passed over in favour of the next. -/
def enclosingName (n : Node) (kinds : List String) (source : Bytes) : Option String :=
  match _h : n.enclosing kinds with
  | none => none
  | some found =>
    match found.tree.fieldText "name" source with
    | some name => some name
    | none => enclosingName found kinds source
termination_by n.above.length
decreasing_by exact length_above_of_mem_ancestors (List.mem_of_find?_eq_some ‹_›)

/-- The total size of the subtrees of a list of nodes. -/
def stackSize (stack : List Node) : Nat :=
  Tree.sizeAll (stack.map (·.tree))

theorem map_tree_siblings (parent : Tree) (above : List Crumb) (before ts : List Tree) :
    (siblings parent above before ts).map (·.tree) = ts := by
  induction ts generalizing before with
  | nil => rfl
  | cons t ts ih => simp [siblings, ih]

theorem sizeAll_append (xs ys : List Tree) :
    Tree.sizeAll (xs ++ ys) = Tree.sizeAll xs + Tree.sizeAll ys := by
  induction xs with
  | nil => simp [Tree.sizeAll]
  | cons t ts ih => simp [Tree.sizeAll, ih, Nat.add_assoc]

/-- Taking a node off the stack and putting its children on makes the stack smaller. -/
theorem stackSize_children_lt (n : Node) (stack : List Node) :
    stackSize (n.children ++ stack) < stackSize (n :: stack) := by
  obtain ⟨⟨l, ts⟩, above⟩ := n
  simp only [stackSize, List.map_append, List.map_cons, sizeAll_append, children,
    map_tree_siblings, Tree.children, Tree.sizeAll, Tree.size]
  omega

/-- The nodes of the stacked trees whose kind is among `kinds`, in document order: the
top of the stack is visited, then its children take its place. -/
def walkStack (kinds : List String) : List Node → List Node
  | [] => []
  | n :: stack =>
    let rest := walkStack kinds (n.children ++ stack)
    if kinds.contains n.kind then n :: rest else rest
termination_by stack => stackSize stack
decreasing_by exact stackSize_children_lt n stack

/-- The nodes at or below `n` whose kind is among `kinds`, in document order. -/
def walk (n : Node) (kinds : List String) : List Node :=
  walkStack kinds [n]

end Node

end ChangeImpact.Syntax
