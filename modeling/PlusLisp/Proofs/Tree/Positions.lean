import Mathlib.Data.List.Lex
import PlusLisp.Proofs.Tree.Preorder
import PlusLisp.Tree.Edit

/-!
The positions of the nodes of a tree, which are paths of places among children from the root down.
Compared as words, positions are in preorder: a node comes before those below it, and what is below
one child before what is below the next.

A walk keeps visits to be made on a stack. Each of them is to a node at a position, and what the
walk goes on to is all that lies below these positions (`visitsFrom_follows`). So it visits each
position once, in order, and says truly from where it was reached.

Rows need no positions to be told apart: labels and numbers of children, in preorder, are a code of
which no word is the beginning of another (`eq_of_code_append`).

Main statement: `walks_follow`.
-/

namespace PlusLisp.Tree

/-! ### Positions -/

/-- The node at a position. -/
def nodeAt? (tree : Tree) (path : List Nat) : Option Tree := tree.subtree? (path.map (↑))

@[simp] theorem nodeAt?_nil (tree : Tree) : tree.nodeAt? [] = some tree := rfl

theorem placeAmong?_natCast (count index : Nat) :
    placeAmong? count (index : Int) = if index < count then some index else none := by
  have hfirst : (if (index : Int) < 0 then (index : Int) + count else index) = index :=
    if_neg (by omega)
  simp only [placeAmong?, hfirst]
  by_cases hindex : index < count
  · rw [if_pos ⟨by omega, by omega⟩, if_pos hindex, Int.toNat_natCast]
  · rw [if_neg (by omega), if_neg hindex]

/-- Below the root, positions go on within a child. -/
theorem nodeAt?_cons (label : Label) (trees : List Tree) (index : Nat) (path : List Nat) :
    (node label trees).nodeAt? (index :: path) = trees[index]?.bind (·.nodeAt? path) := by
  rw [nodeAt?, List.map_cons, subtree?, placeAmong?_natCast]
  by_cases hindex : index < trees.length
  · simp [hindex, nodeAt?]
  · simp [hindex]

/-- A position below another is a position within the node there. -/
theorem nodeAt?_append (tree : Tree) (front path : List Nat) :
    tree.nodeAt? (front ++ path) = (tree.nodeAt? front).bind (·.nodeAt? path) := by
  induction front generalizing tree with
  | nil => rfl
  | cons index front ih =>
    obtain ⟨label, trees⟩ := tree
    rw [List.cons_append, nodeAt?_cons, nodeAt?_cons, Option.bind_assoc]
    exact congrArg _ (funext ih)

theorem nodeAt?_concat {tree parent : Tree} {front : List Nat}
    (h : tree.nodeAt? front = some parent) (index : Nat) :
    tree.nodeAt? (front ++ [index]) = parent.children[index]? := by
  obtain ⟨label, trees⟩ := parent
  rw [nodeAt?_append, h, Option.bind_some, nodeAt?_cons, children]
  cases trees[index]? <;> rfl

mutual

/-- The positions of the nodes of a tree in preorder. -/
def positions : Tree → List (List Nat)
  | node _ children => [] :: positionsFrom 0 children

/-- The positions of the nodes of children, the first of which has the given place. -/
def positionsFrom : Nat → List Tree → List (List Nat)
  | _, [] => []
  | index, tree :: trees => (positions tree).map (index :: ·) ++ positionsFrom (index + 1) trees

end

theorem positions_eq (tree : Tree) : tree.positions = [] :: positionsFrom 0 tree.children := by
  cases tree; rw [positions, children]

theorem positionsFrom_eq_flatMap (first : Nat) (trees : List Tree) :
    positionsFrom first trees =
      (trees.zipIdx first).flatMap fun (tree, index) => tree.positions.map (index :: ·) := by
  induction trees generalizing first with
  | nil => rfl
  | cons tree trees ih => rw [positionsFrom, ih, List.zipIdx_cons, List.flatMap_cons]

theorem mem_positionsFrom_iff {first : Nat} {trees : List Tree} {path : List Nat} :
    path ∈ positionsFrom first trees ↔
      ∃ index tree rest, trees[index]? = some tree ∧ rest ∈ tree.positions ∧
        path = (first + index) :: rest := by
  rw [positionsFrom_eq_flatMap, List.mem_flatMap]
  constructor
  · rintro ⟨⟨tree, place⟩, hmem, hpath⟩
    obtain ⟨rest, hrest, rfl⟩ := List.mem_map.mp hpath
    obtain ⟨hle, htree⟩ := List.mem_zipIdx_iff_le_and_getElem?_sub.mp hmem
    exact ⟨place - first, tree, rest, htree, hrest, by rw [Nat.add_sub_cancel' hle]⟩
  · rintro ⟨index, tree, rest, htree, hrest, rfl⟩
    refine ⟨(tree, first + index), ?_, List.mem_map.mpr ⟨rest, hrest, rfl⟩⟩
    rw [List.mem_zipIdx_iff_le_and_getElem?_sub, Nat.add_sub_cancel_left]
    exact ⟨Nat.le_add_right _ _, htree⟩

/-- The positions of a tree are those where there is a node. -/
theorem mem_positions_iff {tree : Tree} {path : List Nat} :
    path ∈ tree.positions ↔ ∃ node, tree.nodeAt? path = some node := by
  induction path generalizing tree with
  | nil => simp [positions_eq]
  | cons index path ih =>
    obtain ⟨label, trees⟩ := tree
    rw [positions, List.mem_cons, or_iff_right (by simp), mem_positionsFrom_iff, nodeAt?_cons]
    simp only [Nat.zero_add, List.cons.injEq, Option.bind_eq_some_iff]
    constructor
    · rintro ⟨_, child, _, hchild, hpath, rfl, rfl⟩
      obtain ⟨node, hnode⟩ := ih.mp hpath
      exact ⟨node, child, hchild, hnode⟩
    · rintro ⟨node, child, hchild, hnode⟩
      exact ⟨index, child, path, hchild, ih.mpr ⟨node, hnode⟩, rfl, rfl⟩

example : (list [word (some "f"), list [number 1], null]).positions =
    [[], [0], [1], [1, 0], [2]] := rfl

mutual

/-- Positions are in order, and no two are the same. -/
theorem pairwise_positions : ∀ tree : Tree, tree.positions.Pairwise (· < ·)
  | node _ trees => by
    rw [positions, List.pairwise_cons]
    refine ⟨?_, pairwise_positionsFrom trees 0⟩
    intro path hmem
    obtain ⟨index, tree, rest, -, -, rfl⟩ := mem_positionsFrom_iff.mp hmem
    exact List.nil_lt_cons _ _

private theorem pairwise_positionsFrom : ∀ (trees : List Tree) (first : Nat),
    (positionsFrom first trees).Pairwise (· < ·)
  | [], _ => .nil
  | tree :: trees, first => by
    rw [positionsFrom, List.pairwise_append, List.pairwise_map]
    refine ⟨?_, pairwise_positionsFrom trees (first + 1), ?_⟩
    · exact (pairwise_positions tree).imp fun hlt => List.cons_lt_cons_iff.mpr (.inr ⟨rfl, hlt⟩)
    · intro path hpath later hlater
      obtain ⟨rest, -, rfl⟩ := List.mem_map.mp hpath
      obtain ⟨index, _, rest', -, -, rfl⟩ := mem_positionsFrom_iff.mp hlater
      exact List.cons_lt_cons_iff.mpr (.inl (by omega))

end

/-! ### Walks -/

/-- A visit is to the node at a position. Unless that is the root, the visit comes from the node
above, whose position is that of an earlier visit, and has the place of the node among the children
there. -/
inductive VisitedAt (root : Tree) (before : List (List Nat)) : Visit → List Nat → Prop
  | root : VisitedAt root before ⟨none, none, root⟩ []
  | child {number index : Nat} {front : List Nat} {child : Tree} :
      before[number]? = some front → root.nodeAt? (front ++ [index]) = some child →
      VisitedAt root before ⟨some number, some index, child⟩ (front ++ [index])

/-- Visits follow positions one by one, given the positions of the visits before them. -/
inductive Follows (root : Tree) : List (List Nat) → List Visit → List (List Nat) → Prop
  | nil {before : List (List Nat)} : Follows root before [] []
  | cons {before : List (List Nat)} {visit : Visit} {path : List Nat} {visits : List Visit}
      {paths : List (List Nat)} : VisitedAt root before visit path →
      Follows root (before ++ [path]) visits paths →
      Follows root before (visit :: visits) (path :: paths)

section

variable {root : Tree} {before : List (List Nat)} {visit : Visit} {path : List Nat}

theorem VisitedAt.nodeAt?_eq (h : VisitedAt root before visit path) :
    root.nodeAt? path = some visit.tree := by
  cases h with
  | root => rfl
  | child _ hchild => exact hchild

/-- Later visits do not change what was visited before. -/
theorem VisitedAt.append (h : VisitedAt root before visit path) (later : List (List Nat)) :
    VisitedAt root (before ++ later) visit path := by
  cases h with
  | root => exact .root
  | child hfront hchild =>
    obtain ⟨hlt, -⟩ := List.getElem?_eq_some_iff.mp hfront
    exact .child ((List.getElem?_append_left hlt).trans hfront) hchild

/-- A visit to be made, with its position. -/
abbrev Pending := Visit × List Nat

/-- The visits that follow from one to a node, with their positions. -/
def pendingBelow (number : Nat) (visit : Visit) (path : List Nat) : List Pending :=
  visit.tree.children.zipIdx.map fun (child, index) =>
    (⟨some number, some index, child⟩, path ++ [index])

/-- The positions that pending visits lead to, each before those that follow from it. -/
def reach (pending : List Pending) : List (List Nat) :=
  pending.flatMap fun entry => entry.1.tree.positions.map (entry.2 ++ ·)

theorem map_fst_pendingBelow (number : Nat) (visit : Visit) (path : List Nat) :
    (pendingBelow number visit path).map Prod.fst = visit.tree.childVisits number := by
  rw [pendingBelow, List.map_map]
  rfl

/-- A visit leads to its own position and to those that the visits below it lead to. -/
theorem reach_cons (number : Nat) (visit : Visit) (path : List Nat) (pending : List Pending) :
    reach ((visit, path) :: pending) =
      path :: reach (pendingBelow number visit path ++ pending) := by
  have hbelow : reach (pendingBelow number visit path) =
      (positionsFrom 0 visit.tree.children).map (path ++ ·) := by
    simp only [reach, pendingBelow, List.flatMap_map, positionsFrom_eq_flatMap, List.map_flatMap,
      List.map_map]
    refine congrArg (List.flatMap · _) (funext fun (child, index) => ?_)
    exact List.map_congr_left fun rest _ => List.append_assoc path [index] rest
  have hvisit : visit.tree.positions.map (path ++ ·) =
      path :: reach (pendingBelow number visit path) := by
    rw [positions_eq, List.map_cons, List.append_nil, hbelow]
  have happend : reach (pendingBelow number visit path ++ pending) =
      reach (pendingBelow number visit path) ++ reach pending := List.flatMap_append
  rw [happend, ← List.cons_append, ← hvisit]
  rfl

theorem visitedAt_pendingBelow (h : VisitedAt root before visit path) {number : Nat}
    (hnumber : before.length = number) :
    ∀ entry ∈ pendingBelow number visit path,
      VisitedAt root (before ++ [path]) entry.1 entry.2 := by
  intro entry hentry
  obtain ⟨⟨child, index⟩, hmem, rfl⟩ := List.mem_map.mp hentry
  have hchild : visit.tree.children[index]? = some child :=
    List.mem_zipIdx_iff_getElem?.mp hmem
  refine .child ?_ ?_
  · rw [← hnumber, List.getElem?_concat_length]
  · rw [nodeAt?_concat h.nodeAt?_eq, hchild]

/-- A walk follows the positions that its pending visits lead to. -/
theorem visitsFrom_follows (number : Nat) (done visits : List Visit) {pending : List Pending}
    (hvisits : visits = pending.map Prod.fst) (hnumber : before.length = number)
    (hpending : ∀ entry ∈ pending, VisitedAt root before entry.1 entry.2) :
    ∃ later, visitsFrom number done visits = done.reverse ++ later ∧
      Follows root before later (reach pending) := by
  fun_induction visitsFrom number done visits generalizing before pending with
  | case1 number done =>
    obtain rfl := List.map_eq_nil_iff.mp hvisits.symm
    exact ⟨[], (List.append_nil _).symm, .nil⟩
  | case2 number done _ _ ih =>
    obtain ⟨⟨visit, path⟩, pending, rfl, rfl, rfl⟩ := List.map_eq_cons_iff.mp hvisits.symm
    rw [List.forall_mem_cons] at hpending
    obtain ⟨hvisit, hpending⟩ := hpending
    have hvisits : visit.tree.childVisits number ++ pending.map Prod.fst =
        (pendingBelow number visit path ++ pending).map Prod.fst := by
      rw [List.map_append, map_fst_pendingBelow]
    have hplaced : ∀ entry ∈ pendingBelow number visit path ++ pending,
        VisitedAt root (before ++ [path]) entry.1 entry.2 :=
      List.forall_mem_append.mpr ⟨visitedAt_pendingBelow hvisit hnumber,
        fun entry hentry => (hpending entry hentry).append [path]⟩
    obtain ⟨later, hwalk, hfollows⟩ := ih hvisits (by rw [List.length_append, hnumber]; rfl) hplaced
    refine ⟨visit :: later, ?_, ?_⟩
    · rw [hwalk, List.reverse_cons, List.append_assoc, List.singleton_append]
    · rw [reach_cons number]
      exact .cons hvisit hfollows

/-- The visits of a walk follow the positions of the tree. -/
theorem visits_follows (tree : Tree) : Follows tree [] tree.visits tree.positions := by
  have hroot : ∀ entry ∈ [((⟨none, none, tree⟩, []) : Pending)],
      VisitedAt tree [] entry.1 entry.2 := by
    simp only [List.mem_singleton, forall_eq]
    exact .root
  obtain ⟨later, hwalk, hfollows⟩ := visitsFrom_follows 0 [] [⟨none, none, tree⟩] rfl rfl hroot
  have hreach : reach [(⟨none, none, tree⟩, [])] = tree.positions := by
    simp [reach]
  rw [visits, hwalk, ← hreach]
  exact hfollows

end

/-! ### Rows -/

/-- The labels of the nodes of a tree and the numbers of their children, in preorder. -/
def code (trees : List Tree) : List (Label × Nat) :=
  (subtreesEach trees).map fun tree => (tree.label, tree.children.length)

theorem code_cons (label : Label) (members trees : List Tree) :
    code (node label members :: trees) =
      (label, members.length) :: (code members ++ code trees) := by
  simp only [code, subtreesEach, subtrees, List.cons_append, List.map_cons, List.map_append]
  rfl

/-- Trees can be told from their code, even when more follows, if it is known how many they are. -/
theorem eq_of_code_append : ∀ {trees others : List Tree} {rest rest' : List (Label × Nat)},
    trees.length = others.length → code trees ++ rest = code others ++ rest' →
      trees = others ∧ rest = rest'
  | [], [], _, _, _, h => ⟨rfl, h⟩
  | node label members :: trees, node label' members' :: others, rest, rest', hlength, h => by
    rw [code_cons, code_cons, List.cons_append, List.cons_append, List.append_assoc,
      List.append_assoc] at h
    obtain ⟨hhead, hcode⟩ := List.cons.inj h
    obtain ⟨rfl, hwidth⟩ := Prod.mk.inj hhead
    obtain ⟨rfl, hlater⟩ := eq_of_code_append hwidth hcode
    obtain ⟨rfl, rfl⟩ := eq_of_code_append (Nat.succ.inj hlength) hlater
    exact ⟨rfl, rfl⟩

/-- The rows of a walk hold the code of the tree. -/
theorem map_rows (tree : Tree) :
    tree.rows.map (fun row => (row.label, row.width)) = code [tree] := by
  have hsubtrees : subtreesEach [tree] = tree.visits.map Visit.tree := by
    rw [map_tree_visits, subtreesEach, subtreesEach, List.append_nil]
  rw [code, hsubtrees, rows, List.map_map, List.map_map]
  rfl

theorem eq_of_rows_eq {tree other : Tree} (h : tree.rows = other.rows) : tree = other := by
  have hcode : code [tree] ++ [] = code [other] ++ [] := by
    rw [← map_rows, ← map_rows, h]
  obtain ⟨htrees, -⟩ : [tree] = [other] ∧ ([] : List (Label × Nat)) = [] :=
    eq_of_code_append rfl hcode
  exact (List.cons.inj htrees).1

/-! ### Depth -/

theorem heightEach_eq (trees : List Tree) : heightEach trees = (trees.map height).max?.getD 0 := by
  induction trees with
  | nil => rfl
  | cons tree trees ih =>
    rw [heightEach, ih, List.map_cons, List.max?_cons]
    cases (trees.map height).max? with
    | none => exact Nat.max_zero _
    | some highest => rfl

/-- A node is one deeper than the deepest of its children. -/
theorem depth_eq (tree : Tree) :
    tree.depth =
      match (tree.children.map depth).max? with
      | none => 1
      | some deepest => 1 + deepest := by
  have hdepth : depth = height := funext depth_eq_height
  rw [hdepth, height_eq, heightEach_eq]
  cases (tree.children.map height).max? with
  | none => rfl
  | some deepest => exact Nat.add_comm _ _

/-- **Walks do what definitions along the tree say**, for every tree. The visits are made to all
positions where there is a node, in order, so that none is left out and none made twice; each says
which earlier visit was to the node above and at which place among the children there the node
stands. What is shown of the visits determines the tree. The depth is 1 for a node without children,
and otherwise one more than the greatest among the children. -/
theorem walks_follow :
    (∀ tree : Tree, ∃ paths : List (List Nat), paths.Pairwise (· < ·) ∧
      (∀ path, path ∈ paths ↔ ∃ node, tree.nodeAt? path = some node) ∧
      Follows tree [] tree.visits paths) ∧
    (∀ tree other : Tree, tree.same other = true ↔ tree.rows = other.rows) ∧
    ∀ tree : Tree, tree.depth =
      match (tree.children.map depth).max? with
      | none => 1
      | some deepest => 1 + deepest := by
  refine ⟨fun tree => ?_, fun tree other => ?_, depth_eq⟩
  · exact ⟨tree.positions, tree.pairwise_positions, fun path => mem_positions_iff,
      tree.visits_follows⟩
  · rw [same_iff]
    exact ⟨congrArg rows, eq_of_rows_eq⟩

end PlusLisp.Tree
