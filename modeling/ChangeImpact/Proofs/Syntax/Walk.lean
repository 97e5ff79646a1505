import ChangeImpact.Proofs.Syntax.Preorder
import Mathlib.Data.List.Infix
import Mathlib.Data.List.Nodup
import Mathlib.Logic.Relation

/-!
# Walking down and looking out

A walk lists the nodes below a node once each. Looking out from a node of a tree passes the nodes
that lie around it, the nearest first, so a name that is looked for among them is that of the
nearest one that has it.
-/

namespace ChangeImpact.Syntax.Node

variable {root n m a b c : Node} {kinds : List String} {source : Bytes} {name : String}

/-! ## Below and around -/

/-- One node is a child of another. -/
def ChildOf (c n : Node) : Prop := c ∈ n.children

/-- A node lies at another one or anywhere below it. -/
def Below (root n : Node) : Prop := Relation.ReflTransGen (fun n c => c.ChildOf n) root n

/-- A node lies properly above another one. -/
def Encloses (a n : Node) : Prop := Relation.TransGen (fun n c => c.ChildOf n) a n

theorem exists_of_mem_siblings {parent : Tree} {above : List Crumb} {before ts : List Tree}
    (h : c ∈ siblings parent above before ts) :
    ∃ earlier, c.above = ⟨parent, earlier⟩ :: above ∧ before.length ≤ earlier.length := by
  induction ts generalizing before with
  | nil => cases h
  | cons t ts ih =>
    rcases List.mem_cons.mp h with rfl | h
    · exact ⟨before, rfl, Nat.le_refl _⟩
    · obtain ⟨earlier, habove, hle⟩ := ih h
      exact ⟨earlier, habove, Nat.le_of_succ_le hle⟩

/-- Siblings differ in what stands before them. -/
theorem pairwise_above_siblings (parent : Tree) (above : List Crumb) (before ts : List Tree) :
    (siblings parent above before ts).Pairwise fun c d => c.above ≠ d.above := by
  induction ts generalizing before with
  | nil => exact List.Pairwise.nil
  | cons t ts ih =>
    refine List.pairwise_cons.mpr ⟨fun d hd heq => ?_, ih (t :: before)⟩
    obtain ⟨earlier, hd, hle⟩ := exists_of_mem_siblings hd
    rw [hd, List.cons.injEq, Crumb.mk.injEq] at heq
    rw [← heq.1.2] at hle
    exact Nat.not_succ_le_self _ hle

theorem ChildOf.above_eq (h : c.ChildOf n) : ∃ earlier, c.above = ⟨n.tree, earlier⟩ :: n.above := by
  obtain ⟨earlier, habove, -⟩ := exists_of_mem_siblings h
  exact ⟨earlier, habove⟩

/-- Around a child lies its parent, then what lies around that. -/
theorem ChildOf.ancestors_eq (h : c.ChildOf n) : c.ancestors = n :: n.ancestors := by
  obtain ⟨earlier, habove⟩ := h.above_eq
  rw [ancestors, habove]
  rfl

theorem ChildOf.unique (hn : c.ChildOf n) (hm : c.ChildOf m) : n = m :=
  (List.cons.inj (hn.ancestors_eq.symm.trans hm.ancestors_eq)).1

/-- Below a node one is surrounded by what surrounds that node. -/
theorem Below.suffix (h : root.Below n) : root.above <:+ n.above := by
  induction h with
  | refl => exact List.suffix_rfl
  | tail _ hc ih =>
    obtain ⟨earlier, habove⟩ := hc.above_eq
    rw [habove]
    exact ih.trans (List.suffix_cons _ _)

/-- No node lies below two siblings. -/
theorem Below.above_eq (hb : b.Below n) (hc : c.Below n) (h : b.above.length = c.above.length) :
    b.above = c.above :=
  (List.suffix_of_suffix_length_le hb.suffix hc.suffix h.le).eq_of_length h

/-! ## Walking down -/

/-- The pre-order list has the nodes below a node. -/
theorem mem_preorder : m ∈ n.preorder ↔ n.Below m := by
  induction n using induct with
  | h n ih =>
    rw [preorder_eq, List.mem_cons, List.mem_flatMap]
    constructor
    · rintro (rfl | ⟨c, hc, hm⟩)
      · exact .refl
      · exact .head hc ((ih c hc).mp hm)
    · intro h
      rcases h.cases_head with rfl | ⟨c, hc, hm⟩
      · exact .inl rfl
      · exact .inr ⟨c, hc, (ih c hc).mpr hm⟩

/-- The pre-order list has every node once. -/
theorem nodup_preorder (n : Node) : n.preorder.Nodup := by
  induction n using induct with
  | h n ih =>
    rw [preorder_eq, List.nodup_cons, List.nodup_flatMap]
    refine ⟨fun hself => ?_, ih, ?_⟩
    · obtain ⟨c, hc, hn⟩ := List.mem_flatMap.mp hself
      obtain ⟨earlier, habove⟩ := ChildOf.above_eq hc
      have hle := (mem_preorder.mp hn).suffix.length_le
      rw [habove] at hle
      exact Nat.not_succ_le_self _ hle
    · refine (pairwise_above_siblings n.tree n.above [] n.tree.children).imp_of_mem
        fun {b c} hb hc hne m hbm hcm => hne ?_
      obtain ⟨earlier, hbabove⟩ := ChildOf.above_eq (n := n) hb
      obtain ⟨later, hcabove⟩ := ChildOf.above_eq (n := n) hc
      refine (mem_preorder.mp hbm).above_eq (mem_preorder.mp hcm) ?_
      rw [hbabove, hcabove, List.length_cons, List.length_cons]

/-! ## Looking out -/

/-- In a tree the nodes around a node are those that it lies properly below. -/
theorem mem_ancestors {t : Tree} (h : (ofTree t).Below n) : a ∈ n.ancestors ↔ a.Encloses n := by
  induction h with
  | refl =>
    refine iff_of_false List.not_mem_nil fun h => ?_
    obtain ⟨p, -, hp⟩ := Relation.TransGen.tail'_iff.mp h
    obtain ⟨earlier, habove⟩ := hp.above_eq
    cases habove
  | @tail p c _ hc ih =>
    rw [hc.ancestors_eq, List.mem_cons, ih]
    constructor
    · rintro (rfl | ha)
      · exact .single hc
      · exact .tail ha hc
    · intro h
      obtain ⟨q, ha, hq⟩ := Relation.TransGen.tail'_iff.mp h
      obtain rfl := hc.unique hq
      rcases Relation.reflTransGen_iff_eq_or_transGen.mp ha with rfl | ha
      · exact .inl rfl
      · exact .inr ha

theorem below_of_mem_ancestors {t : Tree} (h : (ofTree t).Below n) (ha : a ∈ n.ancestors) :
    (ofTree t).Below a := by
  induction h with
  | refl => cases ha
  | tail hp hc ih =>
    rw [hc.ancestors_eq] at ha
    rcases List.mem_cons.mp ha with rfl | ha
    · exact hp
    · exact ih ha

theorem ancestors_of_append {inside outside : List Node}
    (h : n.ancestors = inside ++ a :: outside) :
    outside = a.ancestors := by
  obtain ⟨t, above⟩ := n
  simp only [ancestors] at h
  induction above generalizing inside with
  | nil => simp [ancestorsAlong] at h
  | cons crumb above ih =>
    rw [ancestorsAlong] at h
    cases inside with
    | nil =>
      obtain ⟨rfl, rfl⟩ := List.cons.inj h
      rfl
    | cons b inside => exact ih (List.cons.inj h).2

/-- What lies between a node and one around it. -/
theorem mem_inside {inside outside : List Node} (h : n.ancestors = inside ++ a :: outside) :
    b ∈ inside ↔ b ∈ n.ancestors ∧ a ∈ b.ancestors := by
  constructor
  · intro hb
    obtain ⟨nearer, farther, rfl⟩ := List.append_of_mem hb
    rw [List.append_assoc, List.cons_append] at h
    rw [h, ← ancestors_of_append h]
    exact ⟨List.mem_append_right _ List.mem_cons_self,
      List.mem_append_right _ List.mem_cons_self⟩
  · rintro ⟨hb, ha⟩
    have hlt := length_above_of_mem_ancestors ha
    rw [h, ancestors_of_append h] at hb
    rcases List.mem_append.mp hb with hb | hb
    · exact hb
    · rcases List.mem_cons.mp hb with rfl | hb
      · exact absurd hlt (Nat.lt_irrefl _)
      · exact absurd (length_above_of_mem_ancestors hb) (Nat.lt_asymm hlt)

/-- The name that a node has to give when names are looked for among some kinds. -/
def nameAmong (kinds : List String) (source : Bytes) (n : Node) : Option String :=
  if kinds.contains n.kind then n.tree.fieldText "name" source else none

theorem nameAmong_eq_some :
    n.nameAmong kinds source = some name ↔
      n.kind ∈ kinds ∧ n.tree.fieldText "name" source = some name := by
  rw [nameAmong, Option.ite_none_right_eq_some, List.contains_iff_mem]

/-- The nearest node of one of the kinds gives its name, or passes the question on. -/
theorem enclosingName_eq_bind (n : Node) (kinds : List String) (source : Bytes) :
    n.enclosingName kinds source = (n.enclosing kinds).bind fun found =>
      (found.tree.fieldText "name" source).or (found.enclosingName kinds source) := by
  rw [enclosingName]
  split
  · next h => rw [h, Option.bind_none]
  · next found h =>
    split
    · next name hname => rw [h, Option.bind_some, hname, Option.some_or]
    · next hname => rw [h, Option.bind_some, hname, Option.none_or]

theorem findSome?_nameAmong {found : Node} (h : n.enclosing kinds = some found) :
    n.ancestors.findSome? (nameAmong kinds source) =
      (found.tree.fieldText "name" source).or
        (found.ancestors.findSome? (nameAmong kinds source)) := by
  obtain ⟨hfound, inside, outside, hsplit, hinside⟩ := List.find?_eq_some_iff_append.mp h
  have hnone : inside.findSome? (nameAmong kinds source) = none := by
    refine List.findSome?_eq_none_iff.mpr fun b hb => if_neg ?_
    rw [Bool.not_eq_true, ← Bool.not_eq_true']
    exact hinside b hb
  rw [hsplit, List.findSome?_append, hnone, Option.none_or, List.findSome?_cons, nameAmong,
    if_pos hfound, ancestors_of_append hsplit]
  cases found.tree.fieldText "name" source with
  | none => rfl
  | some name => rfl

/-- The name is the first one that the nodes around have to give. -/
theorem enclosingName_eq (n : Node) (kinds : List String) (source : Bytes) :
    n.enclosingName kinds source = n.ancestors.findSome? (nameAmong kinds source) := by
  induction n using enclosingName.induct kinds source with
  | case1 n hnone =>
    rw [enclosingName_eq_bind, hnone, Option.bind_none, eq_comm, List.findSome?_eq_none_iff]
    exact fun a ha => if_neg (List.find?_eq_none.mp hnone a ha)
  | case2 n found hfound name hname =>
    rw [enclosingName_eq_bind, hfound, Option.bind_some, findSome?_nameAmong hfound, hname]
    rfl
  | case3 n found hfound hname ih =>
    rw [enclosingName_eq_bind, hfound, Option.bind_some, findSome?_nameAmong hfound, ih]

/-- A node properly above another one has one of the kinds and a name, and no node between them
has both. -/
structure IsNearestNamed (kinds : List String) (source : Bytes) (n a : Node) (name : String) :
    Prop where
  encloses : a.Encloses n
  kind : a.kind ∈ kinds
  name : a.tree.fieldText "name" source = some name
  nearest : ∀ b : Node, a.Encloses b → b.Encloses n → b.kind ∈ kinds →
    b.tree.fieldText "name" source = none

/-- The name is that of the nearest node around that has one of the kinds and a name. -/
theorem enclosingName_eq_some_iff {t : Tree} (h : (ofTree t).Below n) :
    n.enclosingName kinds source = some name ↔ ∃ a, IsNearestNamed kinds source n a name := by
  rw [enclosingName_eq, List.findSome?_eq_some_iff]
  constructor
  · rintro ⟨inside, a, outside, hsplit, ha, hinside⟩
    obtain ⟨hkind, hname⟩ := nameAmong_eq_some.mp ha
    have hmem : a ∈ n.ancestors := hsplit ▸ List.mem_append_right _ List.mem_cons_self
    refine ⟨a, (mem_ancestors h).mp hmem, hkind, hname, fun b hab hbn hbkind => ?_⟩
    have hbmem := (mem_ancestors h).mpr hbn
    have hamem := (mem_ancestors (below_of_mem_ancestors h hbmem)).mpr hab
    have hnone := hinside b ((mem_inside hsplit).mpr ⟨hbmem, hamem⟩)
    rwa [nameAmong, if_pos (List.contains_iff_mem.mpr hbkind)] at hnone
  · rintro ⟨a, ha⟩
    obtain ⟨inside, outside, hsplit⟩ := List.append_of_mem ((mem_ancestors h).mpr ha.encloses)
    refine ⟨inside, a, outside, hsplit, nameAmong_eq_some.mpr ⟨ha.kind, ha.name⟩, fun b hb => ?_⟩
    obtain ⟨hbn, hab⟩ := (mem_inside hsplit).mp hb
    have hbelow := below_of_mem_ancestors h hbn
    by_cases hbkind : b.kind ∈ kinds
    · rw [nameAmong, if_pos (List.contains_iff_mem.mpr hbkind)]
      exact ha.nearest b ((mem_ancestors hbelow).mp hab) ((mem_ancestors h).mp hbn) hbkind
    · exact if_neg (mt List.contains_iff_mem.mp hbkind)

/-- A walk lists the nodes of some kinds in the subtree of a node, once each, in document order,
and a name that is looked for around a node of a tree is that of the nearest node properly above
it that has one of the kinds and a name. -/
theorem walk_inDocumentOrder_and_enclosingName_nearest (kinds : List String) :
    (∀ root : Node, root.walk kinds = root.preorder.filter (·.kind ∈ kinds) ∧
      root.preorder = root :: root.children.flatMap preorder ∧
      (root.walk kinds).Nodup ∧ ∀ n, n ∈ root.walk kinds ↔ root.Below n ∧ n.kind ∈ kinds) ∧
    ∀ (t : Tree) (n : Node) (source : Bytes) (name : String), (ofTree t).Below n →
      (n.enclosingName kinds source = some name ↔
        ∃ a, IsNearestNamed kinds source n a name) := by
  refine ⟨fun root => ?_, fun t n source name h => enclosingName_eq_some_iff h⟩
  have hwalk : root.walk kinds = root.preorder.filter (·.kind ∈ kinds) := by
    rw [walk_eq]
    refine List.filter_congr fun n _ => ?_
    rw [Bool.eq_iff_iff, List.contains_iff_mem, decide_eq_true_iff]
  refine ⟨hwalk, root.preorder_eq, ?_, fun n => ?_⟩
  · rw [hwalk]
    exact root.nodup_preorder.filter _
  · rw [hwalk, List.mem_filter, mem_preorder, decide_eq_true_iff]

/-- `function f() { return () => g }`: the arrow function has no name. -/
def sampleNesting : Tree :=
  .node ⟨"function_declaration", true, none, 0, 31⟩
    [.node ⟨"function", false, none, 0, 8⟩ [],
      .node ⟨"identifier", true, some "name", 9, 10⟩ [],
      .node ⟨"formal_parameters", true, some "parameters", 10, 12⟩ [],
      .node ⟨"statement_block", true, some "body", 13, 31⟩
        [.node ⟨"arrow_function", true, none, 22, 29⟩
          [.node ⟨"formal_parameters", true, some "parameters", 22, 24⟩ [],
            .node ⟨"identifier", true, some "body", 28, 29⟩ []]]]

/-- The last node of that tree. -/
def sampleInnermost : Node := (ofTree sampleNesting).preorder.getLastD (ofTree sampleNesting)

theorem sample_enclosingName :
    (ofTree sampleNesting).Below sampleInnermost ∧
      ∃ a, IsNearestNamed ["function_declaration", "arrow_function"]
        (Utf8.encode "function f() \x7b return () => g \x7d") sampleInnermost a "f" := by
  have hbelow : (ofTree sampleNesting).Below sampleInnermost :=
    mem_preorder.mp (List.getLastD_mem_cons ..)
  exact ⟨hbelow, ((walk_inDocumentOrder_and_enclosingName_nearest _).2 _ _ _ _ hbelow).mp
    (by decide +kernel)⟩

end ChangeImpact.Syntax.Node
