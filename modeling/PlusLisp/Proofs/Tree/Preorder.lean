import PlusLisp.Tree.Walk

/-!
What walks over a tree see. A walk keeps a stack of unfinished subtrees; here it is compared with
definitions that follow the tree.

* `Tree.map_tree_visits`: the visits of a walk are to the subtrees in preorder, so there are as
  many as there are nodes (`Tree.length_visits`).
* `Tree.depth_eq_height`: the greatest level that a walk meets is the height of the tree.
-/

namespace PlusLisp.Tree

/-! ### Subtrees in preorder -/

mutual

/-- The subtrees of a tree in preorder, the tree itself first. -/
def subtrees : Tree → List Tree
  | node label children => node label children :: subtreesEach children

/-- The subtrees of the trees of a sequence, tree after tree. -/
def subtreesEach : List Tree → List Tree
  | [] => []
  | tree :: trees => subtrees tree ++ subtreesEach trees

end

theorem subtreesEach_eq_flatMap (trees : List Tree) :
    subtreesEach trees = trees.flatMap subtrees := by
  induction trees with
  | nil => rfl
  | cons tree trees ih => rw [subtreesEach, ih, List.flatMap_cons]

theorem subtrees_eq (tree : Tree) :
    tree.subtrees = tree :: tree.children.flatMap subtrees := by
  obtain ⟨label, trees⟩ := tree
  rw [subtrees, subtreesEach_eq_flatMap, children]

theorem self_mem_subtrees (tree : Tree) : tree ∈ tree.subtrees := by
  rw [subtrees_eq]
  exact List.mem_cons_self

/-- What lies below a child lies below its parent. -/
theorem mem_subtrees_of_mem_child {label : Label} {trees : List Tree} {child tree : Tree}
    (h : child ∈ trees) (h' : tree ∈ child.subtrees) : tree ∈ (node label trees).subtrees := by
  rw [subtrees_eq]
  exact List.mem_cons_of_mem _ (List.mem_flatMap.mpr ⟨child, h, h'⟩)

mutual

/-- There is one subtree for each node. -/
theorem length_subtrees : ∀ tree : Tree, tree.subtrees.length = tree.size
  | node _ trees => by rw [subtrees, List.length_cons, size, length_subtreesEach trees]

private theorem length_subtreesEach : ∀ trees : List Tree,
    (subtreesEach trees).length = sizeEach trees
  | [] => rfl
  | tree :: trees => by
    rw [subtreesEach, List.length_append, length_subtrees tree, length_subtreesEach trees,
      sizeEach]

end

/-! ### The visits of a walk -/

/-- A walk first makes the pending visits, each followed by those to the subtrees there. -/
theorem map_tree_visitsFrom (number : Nat) (done pending : List Visit) :
    (visitsFrom number done pending).map Visit.tree =
      done.reverse.map Visit.tree ++ (pending.map Visit.tree).flatMap subtrees := by
  fun_induction visitsFrom number done pending with
  | case1 number done => simp
  | case2 number done visit pending ih =>
    rw [ih, List.map_append, map_tree_childVisits, List.flatMap_append, List.map_cons,
      List.flatMap_cons, subtrees_eq visit.tree]
    simp

/-- The visits of a walk are to the subtrees in preorder. -/
theorem map_tree_visits (tree : Tree) : tree.visits.map Visit.tree = tree.subtrees := by
  simp [visits, map_tree_visitsFrom]

/-- A walk visits every node once. -/
theorem length_visits (tree : Tree) : tree.visits.length = tree.size := by
  rw [← length_subtrees, ← map_tree_visits, List.length_map]

/-! ### Height -/

mutual

/-- The number of levels of a tree. -/
def height : Tree → Nat
  | node _ children => heightEach children + 1

/-- The number of levels of the highest tree of a sequence. -/
def heightEach : List Tree → Nat
  | [] => 0
  | tree :: trees => max (height tree) (heightEach trees)

end

theorem height_eq (tree : Tree) : tree.height = heightEach tree.children + 1 := by
  cases tree; rw [height, children]

/-- The greatest level of pending subtrees, each of which comes with the level of its root. -/
private def lowest : List (Tree × Nat) → Nat
  | [] => 0
  | (tree, level) :: pending => max (level + heightEach tree.children) (lowest pending)

private theorem lowest_append (pending others : List (Tree × Nat)) :
    lowest (pending ++ others) = max (lowest pending) (lowest others) := by
  induction pending with
  | nil => simp [lowest]
  | cons entry pending ih => rw [List.cons_append, lowest, lowest, ih, Nat.max_assoc]

private theorem lowest_reverse (pending : List (Tree × Nat)) :
    lowest pending.reverse = lowest pending := by
  induction pending with
  | nil => rfl
  | cons entry pending ih =>
    rw [List.reverse_cons, lowest_append, ih, Nat.max_comm]
    simp [lowest]

/-- Below a node on a level, the children reach as far as they are high. -/
private theorem max_lowest_children (level : Nat) (trees : List Tree) :
    max level (lowest (trees.map fun child => (child, level + 1))) =
      level + heightEach trees := by
  induction trees with
  | nil => simp [lowest, heightEach]
  | cons tree trees ih =>
    rw [List.map_cons, lowest, heightEach, height_eq tree]
    omega

private theorem deepestLevel_eq (deepest : Nat) (pending : List (Tree × Nat)) :
    deepestLevel deepest pending = max deepest (lowest pending) := by
  fun_induction deepestLevel deepest pending with
  | case1 deepest => simp [lowest]
  | case2 deepest tree level pending ih =>
    have children := max_lowest_children level tree.children
    rw [ih, lowest_append, lowest_reverse, lowest]
    omega

/-- The depth of a tree is its height. -/
theorem depth_eq_height (tree : Tree) : tree.depth = tree.height := by
  rw [depth, deepestLevel_eq, lowest, lowest, height_eq]
  omega

end PlusLisp.Tree
