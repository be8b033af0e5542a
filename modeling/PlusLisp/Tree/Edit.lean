import PlusLisp.Tree

/-!
Edits of a tree at a node, which is reached from the root by a path of places among children.
Places count from the first child, starting at zero; negative ones count back from the last.
-/

namespace PlusLisp.Tree

/-- The place, counted from the first of so many children, that a place stands for. -/
def placeAmong? (count : Nat) (place : Int) : Option Nat :=
  let fromFirst := if place < 0 then place + count else place
  if 0 ≤ fromFirst ∧ fromFirst < count then some fromFirst.toNat else none

/-- The subtree at the end of a path, if the path leads to one. -/
def subtree? : List Int → Tree → Option Tree
  | [], tree => some tree
  | place :: path, node _ children => do
    let place ← placeAmong? children.length place
    subtree? path (← children[place]?)

/-- Replace the subtree at the end of a path, if the path leads to one. -/
def modifyAt? (edit : Tree → Tree) : List Int → Tree → Option Tree
  | [], tree => some (edit tree)
  | place :: path, node label children => do
    let place ← placeAmong? children.length place
    let child ← children[place]?
    let child ← modifyAt? edit path child
    return node label (children.set place child)

/-- The tree with one more child, which stands last. -/
def push (child : Tree) : Tree → Tree
  | node label children => node label (children ++ [child])

/-- The tree without its last child, if it has one. -/
def pop : Tree → Tree
  | node label children => node label children.dropLast

/-- The tree with another label at its root. -/
def relabel (label : Label) : Tree → Tree
  | node _ children => node label children

end PlusLisp.Tree
