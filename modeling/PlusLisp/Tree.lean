import PlusLisp.Fault

/-!
Trees, the one form of both programs and results. A node carries a label, which says what the
node is and what value it has, and children. Programs read from text and results of runs use a
small part of the type: childless words and numbers, and lists without value.

Main statement: two trees are the same, as `Tree.same` compares them, exactly when they are
equal (`Tree.same_iff`).
-/

namespace PlusLisp

/-- What a node is, with its value. A number has an integer; everything else may have a text. -/
inductive Label where
  | null (value : Option String)
  | list (value : Option String)
  | number (value : Int)
  | word (text : Option String)
  | unknown (kind : String) (value : Option String)
  deriving DecidableEq, Repr

namespace Label

/-- The name of what a node is. -/
def kind : Label → String
  | null _ => "null"
  | list _ => "list"
  | number _ => "number"
  | word _ => "word"
  | unknown kind _ => kind

/-- The text of the value, if there is one. -/
def valueText : Label → Option String
  | null value | list value | word value | unknown _ value => value
  | number value => some (toString value)

/-- The label with another value. A number takes the integer that a text writes, and keeps its
own without a text. -/
def withValue (text : Option String) : Label → Except Fault Label
  | null _ => .ok (null text)
  | list _ => .ok (list text)
  | word _ => .ok (word text)
  | unknown kind _ => .ok (unknown kind text)
  | number value =>
    match text.map Text.readInteger with
    | none => .ok (number value)
    | some (.ok value) => .ok (number value)
    | some (.error error) => .error (.badNumeral error)

/-- The label of the given kind and value. The value of a number has to write an integer in
range. -/
def ofTexts (kind : String) (value : Option String) : Except Fault Label :=
  match kind with
  | "null" => .ok (null value)
  | "list" => .ok (list value)
  | "word" => .ok (word value)
  | "number" =>
    match Text.readInteger (value.getD "") with
    | .ok n => (Signed64.check n).map number
    | .error error => .error (.badNumeral error)
  | kind => .ok (unknown kind value)

end Label

/-- A tree: a label and the trees below it. -/
inductive Tree where
  | node (label : Label) (children : List Tree)

namespace Tree

/-- The label of the root. -/
def label : Tree → Label
  | node label _ => label

/-- The trees below the root. -/
def children : Tree → List Tree
  | node _ children => children

/-- The tree that stands for no value. -/
def null : Tree := node (.null none) []

/-- The list of the given trees. -/
def list (children : List Tree) : Tree := node (.list none) children

/-- The number of an integer. -/
def number (value : Int) : Tree := node (.number value) []

/-- The word of a text. -/
def word (text : Option String) : Tree := node (.word text) []

/-- Holds of the trees that stand for no value. -/
def isNull : Tree → Bool
  | node (.null _) _ => true
  | _ => false

/-- The text of a tree that is a word; a word may lack its text. -/
def wordText? : Tree → Option (Option String)
  | node (.word text) _ => some text
  | _ => none

/-! ### Comparison -/

mutual

/-- Whether two trees have the same labels in the same places. -/
def same : Tree → Tree → Bool
  | node label children, node label' children' =>
      decide (label = label') && sameEach children children'

/-- Whether two sequences of trees are the same, tree by tree. -/
def sameEach : List Tree → List Tree → Bool
  | [], [] => true
  | tree :: trees, tree' :: trees' => same tree tree' && sameEach trees trees'
  | _, _ => false

end

mutual

private theorem eq_of_same : ∀ {a b : Tree}, same a b = true → a = b
  | node label children, node label' children', h => by
      simp only [same, Bool.and_eq_true, decide_eq_true_eq] at h
      rw [h.1, eq_of_sameEach h.2]

private theorem eq_of_sameEach : ∀ {as bs : List Tree}, sameEach as bs = true → as = bs
  | [], [], _ => rfl
  | a :: as, b :: bs, h => by
      simp only [sameEach, Bool.and_eq_true] at h
      rw [eq_of_same h.1, eq_of_sameEach h.2]
  | [], _ :: _, h | _ :: _, [], h => by simp [sameEach] at h

end

mutual

private theorem same_self : ∀ a : Tree, same a a = true
  | node label children => by simp [same, sameEach_self children]

private theorem sameEach_self : ∀ as : List Tree, sameEach as as = true
  | [] => rfl
  | a :: as => by simp [sameEach, same_self a, sameEach_self as]

end

/-- Trees are the same exactly when they are equal. -/
theorem same_iff {a b : Tree} : same a b = true ↔ a = b :=
  ⟨eq_of_same, fun h => h ▸ same_self a⟩

instance : DecidableEq Tree := fun _ _ => decidable_of_iff _ same_iff

end Tree

end PlusLisp
