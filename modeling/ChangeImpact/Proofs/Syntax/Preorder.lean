import ChangeImpact.Syntax.Node
import Mathlib.Data.List.Basic

/-!
# Document order

A walk with an explicit stack visits the nodes in the order of the pre-order list. In a nested
tree, where children lie within their parent one after the other, that order is the order in
which the nodes start.
-/

namespace ChangeImpact.Syntax

namespace Tree

/-! ## Pre-order -/

theorem preorderAll_eq (ts : List Tree) : preorderAll ts = ts.flatMap preorder := by
  induction ts with
  | nil => rfl
  | cons t ts ih => rw [preorderAll, ih, List.flatMap_cons]

theorem preorder_eq (t : Tree) : t.preorder = t :: t.children.flatMap preorder := by
  obtain ⟨l, ts⟩ := t
  rw [preorder, preorderAll_eq]
  rfl

theorem self_mem_preorder (t : Tree) : t ∈ t.preorder := by
  rw [preorder_eq]
  exact List.mem_cons_self ..

theorem mem_preorder_of_mem_children {t c u : Tree} (hc : c ∈ t.children) (hu : u ∈ c.preorder) :
    u ∈ t.preorder := by
  rw [preorder_eq]
  exact List.mem_cons_of_mem _ (List.mem_flatMap.mpr ⟨c, hc, hu⟩)

/-- What goes from all children to their parent holds of every tree. -/
theorem induct {P : Tree → Prop} (h : ∀ t, (∀ c ∈ t.children, P c) → P t) (t : Tree) : P t :=
  h t fun c hc =>
    have := size_lt_of_mem_children hc
    induct h c
termination_by t.size

/-! ## Nested trees -/

/-- The children lie within the range of the root, one after the other. -/
structure InOrder (t : Tree) : Prop where
  range : t.label.start ≤ t.label.stop
  within : ∀ c ∈ t.children, t.label.start ≤ c.label.start ∧ c.label.stop ≤ t.label.stop
  apart : t.children.Pairwise fun a b => a.label.stop ≤ b.label.start

instance (t : Tree) : Decidable t.InOrder :=
  decidable_of_iff
    (t.label.start ≤ t.label.stop ∧
      (∀ c ∈ t.children, t.label.start ≤ c.label.start ∧ c.label.stop ≤ t.label.stop) ∧
      t.children.Pairwise fun a b => a.label.stop ≤ b.label.start)
    ⟨fun h => ⟨h.1, h.2.1, h.2.2⟩, fun h => ⟨h.range, h.within, h.apart⟩⟩

/-- At every node the children lie within it, one after the other. -/
def Nested (t : Tree) : Prop := ∀ u ∈ t.preorder, u.InOrder

instance (t : Tree) : Decidable t.Nested := inferInstanceAs (Decidable (∀ u ∈ t.preorder, u.InOrder))

theorem Nested.inOrder {t : Tree} (h : t.Nested) : t.InOrder := h t t.self_mem_preorder

theorem Nested.child {t c : Tree} (h : t.Nested) (hc : c ∈ t.children) : c.Nested :=
  fun u hu => h u (mem_preorder_of_mem_children hc hu)

/-- What lies below a node lies within it. -/
theorem Nested.within {t : Tree} (h : t.Nested) :
    ∀ u ∈ t.preorder, t.label.start ≤ u.label.start ∧ u.label.stop ≤ t.label.stop := by
  induction t using induct with
  | h t ih =>
    intro u hu
    rw [preorder_eq] at hu
    rcases List.mem_cons.mp hu with rfl | hu
    · exact ⟨Nat.le_refl _, Nat.le_refl _⟩
    · obtain ⟨c, hc, hu⟩ := List.mem_flatMap.mp hu
      have hcu := ih c hc (h.child hc) u hu
      have htc := h.inOrder.within c hc
      exact ⟨Nat.le_trans htc.1 hcu.1, Nat.le_trans hcu.2 htc.2⟩

/-- What lies below one child starts before what lies below a later one. -/
theorem Nested.pairwise_children {t : Tree} (h : t.Nested) :
    t.children.Pairwise fun a b =>
      ∀ u ∈ a.preorder, ∀ v ∈ b.preorder, u.label.start ≤ v.label.start := by
  refine h.inOrder.apart.imp_of_mem fun {a b} ha hb hab u hu v hv => ?_
  have hau := (h.child ha).within u hu
  have hbv := (h.child hb).within v hv
  have hurange := (h.child ha u hu).range
  exact Nat.le_trans hurange (Nat.le_trans hau.2 (Nat.le_trans hab hbv.1))

/-- In document order a nested tree starts its nodes one after the other. -/
theorem Nested.pairwise_start {t : Tree} (h : t.Nested) :
    t.preorder.Pairwise fun a b => a.label.start ≤ b.label.start := by
  induction t using induct with
  | h t ih =>
    rw [preorder_eq, List.pairwise_cons]
    constructor
    · intro u hu
      exact (h.within u (preorder_eq t ▸ List.mem_cons_of_mem _ hu)).1
    · rw [List.pairwise_flatMap]
      exact ⟨fun c hc => ih c hc (h.child hc), h.pairwise_children⟩

end Tree

/-! ## Walking -/

namespace Node

mutual
/-- The nodes at or below a tree in its surroundings: the tree, then what lies below each of its
children. -/
def preorderAt (above : List Crumb) : Tree → List Node
  | .node l ts => ⟨.node l ts, above⟩ :: preorderAlong (.node l ts) above [] ts

/-- The nodes at or below the siblings that follow `before` under `parent`. -/
def preorderAlong (parent : Tree) (above : List Crumb) (before : List Tree) : List Tree → List Node
  | [] => []
  | t :: ts =>
    preorderAt (⟨parent, before⟩ :: above) t ++ preorderAlong parent above (t :: before) ts
end

/-- The nodes at or below a node in document order, each before what lies below it. -/
def preorder (n : Node) : List Node := preorderAt n.above n.tree

theorem preorderAlong_eq (parent : Tree) (above : List Crumb) (before ts : List Tree) :
    preorderAlong parent above before ts =
      (siblings parent above before ts).flatMap preorder := by
  induction ts generalizing before with
  | nil => rfl
  | cons t ts ih =>
    rw [preorderAlong, ih, siblings, List.flatMap_cons]
    rfl

/-- A node comes before the lists of its children, which follow one after the other. -/
theorem preorder_eq (n : Node) : n.preorder = n :: n.children.flatMap preorder := by
  obtain ⟨⟨l, ts⟩, above⟩ := n
  rw [preorder, preorderAt, preorderAlong_eq]
  rfl

theorem map_tree_children (n : Node) : n.children.map (·.tree) = n.tree.children :=
  map_tree_siblings ..

/-- What goes from all children to their parent holds of every node. -/
theorem induct {P : Node → Prop} (h : ∀ n, (∀ c ∈ n.children, P c) → P n) (n : Node) : P n :=
  h n fun c hc =>
    have : c.tree.size < n.tree.size :=
      Tree.size_lt_of_mem_children (map_tree_children n ▸ List.mem_map_of_mem hc)
    induct h c
termination_by n.tree.size

theorem map_tree_preorder (n : Node) : n.preorder.map (·.tree) = n.tree.preorder := by
  induction n using induct with
  | h n ih =>
    rw [preorder_eq, Tree.preorder_eq, List.map_cons, List.map_flatMap, ← map_tree_children,
      List.flatMap_map, List.flatMap_congr ih]

/-- A walk visits the nodes on the stack in document order: what lies below the top of the
stack comes before the rest of the stack. -/
theorem walkStack_eq (kinds : List String) (stack : List Node) :
    walkStack kinds stack = (stack.flatMap preorder).filter (kinds.contains ·.kind) := by
  have hbelow (n : Node) (stack : List Node) :
      (n :: stack).flatMap preorder = n :: (n.children ++ stack).flatMap preorder := by
    rw [List.flatMap_cons, preorder_eq, List.flatMap_append, List.cons_append]
  induction stack using walkStack.induct kinds with
  | case1 =>
    rw [walkStack]
    rfl
  | case2 n stack hkind ih =>
    rw [walkStack, if_pos hkind, ih, hbelow, List.filter_cons, if_pos hkind]
  | case3 n stack hkind ih =>
    rw [walkStack, if_neg hkind, ih, hbelow, List.filter_cons, if_neg hkind]

/-- A walk lists what the pre-order list has of some kinds. -/
theorem walk_eq (n : Node) (kinds : List String) :
    n.walk kinds = n.preorder.filter (kinds.contains ·.kind) := by
  rw [walk, walkStack_eq, List.flatMap_singleton]

theorem map_tree_walk (n : Node) (kinds : List String) :
    (n.walk kinds).map (·.tree) = n.tree.preorder.filter (kinds.contains ·.kind) := by
  rw [walk_eq, ← map_tree_preorder, List.filter_map]
  rfl

/-- A walk through a nested tree meets the nodes in the order in which they start. -/
theorem pairwise_walk {n : Node} (h : n.tree.Nested) (kinds : List String) :
    (n.walk kinds).Pairwise fun a b => a.tree.label.start ≤ b.tree.label.start := by
  have hfilter := h.pairwise_start.filter (kinds.contains ·.kind)
  rw [← map_tree_walk, List.pairwise_map] at hfilter
  exact hfilter

theorem mem_preorder_of_mem_walk {n u : Node} {kinds : List String} (h : u ∈ n.walk kinds) :
    u.tree ∈ n.tree.preorder := by
  have hu := List.mem_map_of_mem (f := (·.tree)) h
  rw [map_tree_walk] at hu
  exact List.mem_of_mem_filter hu

end Node

end ChangeImpact.Syntax
