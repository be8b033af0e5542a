import PlusLisp.Tree

/-!
Candidates: what may be handed in where a tree is asked for. In the place of any node a text may
stand, which is no node. A candidate without texts is a tree.

Main statement: two candidates are the same, as `Candidate.same` compares them, exactly when
they are equal (`Candidate.same_iff`). So a text is never the same as a node.
-/

namespace PlusLisp

/-- A candidate for a tree. -/
inductive Candidate where
  | text (text : String)
  | node (label : Label) (children : List Candidate)

namespace Candidate

/-! ### Comparison -/

mutual

/-- Whether two candidates have the same labels and texts in the same places. -/
def same : Candidate → Candidate → Bool
  | text a, text b => decide (a = b)
  | node label children, node label' children' =>
      decide (label = label') && sameEach children children'
  | _, _ => false

/-- Whether two sequences of candidates are the same, candidate by candidate. -/
def sameEach : List Candidate → List Candidate → Bool
  | [], [] => true
  | a :: as, b :: bs => same a b && sameEach as bs
  | _, _ => false

end

mutual

private theorem eq_of_same : ∀ {a b : Candidate}, same a b = true → a = b
  | text a, text b, h => by
      simp only [same, decide_eq_true_eq] at h
      rw [h]
  | node label children, node label' children', h => by
      simp only [same, Bool.and_eq_true, decide_eq_true_eq] at h
      rw [h.1, eq_of_sameEach h.2]
  | text _, node _ _, h | node _ _, text _, h => by simp [same] at h

private theorem eq_of_sameEach : ∀ {as bs : List Candidate}, sameEach as bs = true → as = bs
  | [], [], _ => rfl
  | a :: as, b :: bs, h => by
      simp only [sameEach, Bool.and_eq_true] at h
      rw [eq_of_same h.1, eq_of_sameEach h.2]
  | [], _ :: _, h | _ :: _, [], h => by simp [sameEach] at h

end

mutual

private theorem same_self : ∀ a : Candidate, same a a = true
  | text a => by simp [same]
  | node label children => by simp [same, sameEach_self children]

private theorem sameEach_self : ∀ as : List Candidate, sameEach as as = true
  | [] => rfl
  | a :: as => by simp [sameEach, same_self a, sameEach_self as]

end

/-- Candidates are the same exactly when they are equal. -/
theorem same_iff {a b : Candidate} : same a b = true ↔ a = b :=
  ⟨eq_of_same, fun h => h ▸ same_self a⟩

/-! ### Trees -/

mutual

/-- A tree as a candidate. -/
def ofTree : Tree → Candidate
  | .node label children => node label (ofTrees children)

/-- Trees as candidates. -/
def ofTrees : List Tree → List Candidate
  | [] => []
  | tree :: trees => ofTree tree :: ofTrees trees

end

mutual

/-- The tree that a candidate is, unless a text stands in it. -/
def tree? : Candidate → Option Tree
  | text _ => none
  | node label children => (trees? children).map (Tree.node label)

/-- The trees that the candidates of a sequence are, unless a text stands in one. -/
def trees? : List Candidate → Option (List Tree)
  | [] => some []
  | a :: as => do
    let tree ← tree? a
    let trees ← trees? as
    return tree :: trees

end

mutual

/-- A tree is the tree that it is as a candidate. -/
theorem tree?_ofTree : ∀ tree : Tree, tree? (ofTree tree) = some tree
  | .node label children => by simp [ofTree, tree?, trees?_ofTrees children]

theorem trees?_ofTrees : ∀ trees : List Tree, trees? (ofTrees trees) = some trees
  | [] => rfl
  | tree :: trees => by simp [ofTrees, trees?, tree?_ofTree tree, trees?_ofTrees trees]

end

end Candidate

end PlusLisp
