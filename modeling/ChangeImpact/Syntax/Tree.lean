import ChangeImpact.Text.Utf8

/-!
# Syntax trees

A syntax tree is an ordered tree whose nodes carry their grammar kind, the field
under which their parent holds them, and the range of source octets that they
cover. Trees arrive as the pre-order list of their labels with depths;
`Tree.ofRows` rebuilds the tree from it.
-/

namespace ChangeImpact.Syntax

/-- What a syntax node says about itself. -/
structure Label where
  /-- The kind that the grammar gives it. -/
  kind : String
  /-- Whether it is a named node; punctuation and keywords are not. -/
  named : Bool
  /-- The field of the parent that holds it. -/
  field : Option String
  /-- Offset of its first octet. -/
  start : Nat
  /-- Offset after its last octet. -/
  stop : Nat
deriving DecidableEq, Repr, Inhabited

/-- A syntax tree. -/
inductive Tree where
  /-- A node with its children in source order. -/
  | node (label : Label) (children : List Tree)
deriving Inhabited

namespace Tree

/-- The label of the root. -/
def label : Tree → Label
  | .node l _ => l

/-- The children of the root in source order. -/
def children : Tree → List Tree
  | .node _ ts => ts

/-- The grammar kind of the root. -/
def kind (t : Tree) : String := t.label.kind

/-- Whether the root is a named node. -/
def named (t : Tree) : Bool := t.label.named

mutual
/-- The number of nodes. -/
def size : Tree → Nat
  | .node _ ts => 1 + sizeAll ts

/-- The number of nodes of a list of trees. -/
def sizeAll : List Tree → Nat
  | [] => 0
  | t :: ts => size t + sizeAll ts
end

/-- A child is smaller than its parent. -/
theorem size_lt_of_mem_children {t c : Tree} (h : c ∈ t.children) : c.size < t.size := by
  obtain ⟨l, ts⟩ := t
  have all : ∀ us : List Tree, c ∈ us → c.size ≤ sizeAll us := by
    intro us
    induction us with
    | nil => simp
    | cons u us ih =>
      intro hm
      rcases List.mem_cons.mp hm with rfl | hm
      · simp [sizeAll]
      · have := ih hm
        simp only [sizeAll]
        omega
  have := all ts h
  simp only [size]
  omega

/-- The named children in source order. -/
def namedChildren (t : Tree) : List Tree :=
  t.children.filter (·.named)

/-- The first child of a kind. -/
def findChild (t : Tree) (kind : String) : Option Tree :=
  t.children.find? (·.kind = kind)

/-- The children of some kinds. -/
def childrenOfKind (t : Tree) (kinds : List String) : List Tree :=
  t.children.filter fun c => kinds.contains c.kind

/-- The first child held under a field. -/
def field? (t : Tree) (name : String) : Option Tree :=
  t.children.find? (·.label.field = some name)

/-- All children held under a field. -/
def fields (t : Tree) (name : String) : List Tree :=
  t.children.filter (·.label.field = some name)

theorem size_lt_of_field? {t c : Tree} {name : String} (h : t.field? name = some c) :
    c.size < t.size :=
  size_lt_of_mem_children (List.mem_of_find?_eq_some h)

theorem size_lt_of_mem_namedChildren {t c : Tree} (h : c ∈ t.namedChildren) :
    c.size < t.size :=
  size_lt_of_mem_children (List.mem_filter.mp h).1

mutual
/-- The tree and all trees below it in document order, each before its children. -/
def preorder : Tree → List Tree
  | .node l ts => .node l ts :: preorderAll ts

/-- The pre-order lists of some trees one after the other. -/
def preorderAll : List Tree → List Tree
  | [] => []
  | t :: ts => preorder t ++ preorderAll ts
end

/-- The first tree, in document order, whose kind is among `kinds`. -/
def firstOfKind (t : Tree) (kinds : List String) : Option Tree :=
  t.preorder.find? fun u => kinds.contains u.kind

/-- Put a row in front of what follows it: the trees that lie deeper, up to the next
one that does not, become its children. -/
def attach (row : Nat × Label) (later : List (Nat × Tree)) : List (Nat × Tree) :=
  let below := later.takeWhile fun entry => row.1 < entry.1
  let beside := later.dropWhile fun entry => row.1 < entry.1
  (row.1, .node row.2 (below.map (·.2))) :: beside

/-- The tree whose pre-order list of depths and labels is given; none for no rows. -/
def ofRows (rows : List (Nat × Label)) : Option Tree :=
  (rows.foldr attach []).head?.map (·.2)

/-- The octet of a line feed. -/
def lineFeed : UInt8 := 10

/-- The line on which an offset lies: one more than the line feeds before it. -/
def lineAt (source : Bytes) (offset : Nat) : Nat :=
  (source.take offset).count lineFeed + 1

/-- The line of the first octet. -/
def line (t : Tree) (source : Bytes) : Nat :=
  lineAt source t.label.start

/-- The line of the end. -/
def endLine (t : Tree) (source : Bytes) : Nat :=
  lineAt source t.label.stop

/-- The octets that the tree covers, as text. -/
def text (t : Tree) (source : Bytes) : String :=
  Utf8.decode ((source.drop t.label.start).take (t.label.stop - t.label.start))

/-- The text of the first child under a field. -/
def fieldText (t : Tree) (name : String) (source : Bytes) : Option String :=
  (t.field? name).map (·.text source)

/-- The text of the first child under a field, empty when there is none. -/
def fieldTextD (t : Tree) (name : String) (source : Bytes) : String :=
  (t.fieldText name source).getD ""

/-- The texts of the given fields one after the other, missing ones left out. -/
def signature (t : Tree) (names : List String) (source : Bytes) : String :=
  String.join (names.filterMap fun name => t.fieldText name source)

end Tree

end ChangeImpact.Syntax
