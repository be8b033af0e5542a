import PlusLisp.Tree

/-!
Walks over all nodes of a tree. They keep the subtrees still to be visited on a stack, so that
nothing depends on how deeply a tree is nested.

* `Tree.visits` visits parents before their children and children from left to right. Each
  visit says from where the node was reached, and `Tree.rows` is what it shows of the node.
* `Tree.depth` is the greatest level of a node; the root is on level 1.
-/

namespace PlusLisp.Tree

/-! ### Size -/

mutual

/-- The number of nodes of a tree. -/
def size : Tree → Nat
  | node _ children => sizeEach children + 1

/-- The number of nodes of a sequence of trees, on which walks end. -/
def sizeEach : List Tree → Nat
  | [] => 0
  | tree :: trees => size tree + sizeEach trees

end

/-- The number of nodes is one more than that of the trees below the root. -/
theorem size_eq (tree : Tree) : tree.size = sizeEach tree.children + 1 := by
  cases tree; rw [size, children]

/-- Sequences of trees one after the other have the nodes of both. -/
theorem sizeEach_append (trees others : List Tree) :
    sizeEach (trees ++ others) = sizeEach trees + sizeEach others := by
  induction trees with
  | nil => simp [sizeEach]
  | cons tree trees ih => simp [sizeEach, ih, Nat.add_assoc]

/-- The order of trees does not change the number of their nodes. -/
theorem sizeEach_reverse (trees : List Tree) : sizeEach trees.reverse = sizeEach trees := by
  induction trees with
  | nil => rfl
  | cons tree trees ih => simp [sizeEach, sizeEach_append, ih, Nat.add_comm]

/-! ### Visits -/

/-- A visit to a node: the number of the visit to its parent and its place among the children
there, both absent for the root, and the subtree at the node. -/
structure Visit where
  parent : Option Nat
  index : Option Nat
  tree : Tree

/-- The visits to the children of a node, given the number of the visit to the node. -/
def childVisits (number : Nat) (tree : Tree) : List Visit :=
  tree.children.zipIdx.map fun (child, index) => ⟨some number, some index, child⟩

/-- The visits to the children of a node are to its children, in order. -/
theorem map_tree_childVisits (number : Nat) (tree : Tree) :
    (tree.childVisits number).map Visit.tree = tree.children := by
  have h : (Visit.tree ∘ fun p : Tree × Nat => (⟨some number, some p.2, p.1⟩ : Visit)) =
      Prod.fst := rfl
  rw [childVisits, List.map_map, h, List.zipIdx_map_fst]

/-- Make the pending visits, and those that follow from them, in order. `number` counts the
visits made, which `done` holds, newest first. -/
def visitsFrom (number : Nat) (done : List Visit) : List Visit → List Visit
  | [] => done.reverse
  | visit :: pending =>
      visitsFrom (number + 1) (visit :: done) (visit.tree.childVisits number ++ pending)
termination_by pending => sizeEach (pending.map Visit.tree)
decreasing_by
  simp only [List.map_append, List.map_cons, map_tree_childVisits, sizeEach_append, sizeEach,
    size_eq visit.tree]
  omega

/-- All visits of a walk over a tree, in order. -/
def visits (tree : Tree) : List Visit := visitsFrom 0 [] [⟨none, none, tree⟩]

/-- What a visit shows: from where the node was reached, its label, and how many children it
has. -/
structure Row where
  parent : Option Nat
  index : Option Nat
  label : Label
  width : Nat
  deriving DecidableEq, Repr

/-- The row of a visit. -/
def Visit.row (visit : Visit) : Row :=
  ⟨visit.parent, visit.index, visit.tree.label, visit.tree.children.length⟩

/-- The rows of a walk over a tree, in order. -/
def rows (tree : Tree) : List Row := tree.visits.map Visit.row

/-! ### Depth -/

/-- The greatest level among those seen so far and those of the pending subtrees, each of which
comes with the level of its root. -/
def deepestLevel (deepest : Nat) : List (Tree × Nat) → Nat
  | [] => deepest
  | (tree, level) :: pending =>
      deepestLevel (max deepest level)
        ((tree.children.map fun child => (child, level + 1)).reverse ++ pending)
termination_by pending => sizeEach (pending.map Prod.fst)
decreasing_by
  have h : (Prod.fst ∘ fun child : Tree => (child, level + 1)) = id := rfl
  simp only [List.map_append, List.map_reverse, List.map_map, h, List.map_id, List.map_cons,
    sizeEach_append, sizeEach_reverse, sizeEach, size_eq tree]
  omega

/-- The depth of a tree: 1 for a node without children. -/
def depth (tree : Tree) : Nat := deepestLevel 0 [(tree, 1)]

end PlusLisp.Tree
