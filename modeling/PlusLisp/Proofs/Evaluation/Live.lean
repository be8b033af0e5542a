import Mathlib.Data.ENat.Basic
import Mathlib.Data.List.Lex
import Mathlib.Data.Set.Basic
import PlusLisp.Proofs.Evaluation.Course

/-!
The live nodes of a tree, those that an evaluation goes to when nothing stops it, and their
failures. Whether a node is live is up to the lists around it. Whether it fails is up to itself, and
for a sum to the values of its two operands.

A node is told by its path from the root. Most nodes that fail do so when an evaluation comes to
them. A sum whose operands have their values can still fail, after all nodes below it, so that the
order of failures mixes two orders of the nodes (`Stage.time`).

A region is what a part of a tree amounts to, its live nodes and their failures. A tree is put
together from the regions of its root and of its children (`Region.ofTree_eq`).
-/

namespace PlusLisp

/-! ### Live nodes -/

/-- How a list is evaluated when it is handed in. A program is a sequence of forms, whatever the
first is. -/
def Entry.formOf : Entry → List Tree → Tree.Form
  | program, _ => .sequence
  | form, members => Tree.formOf members

/-- An evaluation of a tree goes on to the child with an index: to all members of a sequence, and
to the operands of a sum, which are at 1 and 2. -/
def Entry.GoesTo (entry : Entry) : Tree → Nat → Tree → Prop
  | .node (.list _) members, index, member =>
    members[index]? = some member ∧
      match entry.formOf members with
      | .sum => 3 ≤ members.length ∧ (index = 1 ∨ index = 2)
      | .unknown _ => False
      | .sequence => True
  | _, _, _ => False

/-- How the node at the end of a path is handed in. Only the root can be a program. -/
def Entry.along : Entry → List Nat → Entry
  | entry, [] => entry
  | _, _ :: _ => form

@[simp] theorem Entry.along_form (path : List Nat) : form.along path = form := by
  cases path <;> rfl

/-- A node is live at the end of a path: an evaluation that nothing stops comes to it. -/
inductive Live (entry : Entry) (tree : Tree) : List Nat → Tree → Prop
  | root : Live entry tree [] tree
  | child {path : List Nat} {node child : Tree} {index : Nat} : Live entry tree path node →
      (entry.along path).GoesTo node index child → Live entry tree (path ++ [index]) child

/-- The paths to the live nodes. -/
def livePaths (entry : Entry) (tree : Tree) : Set (List Nat) :=
  {path | ∃ node, Live entry tree path node}

section

variable {entry : Entry} {tree node : Tree} {index : Nat} {path : List Nat}

@[simp] theorem live_nil_iff : Live entry tree [] node ↔ node = tree := by
  constructor
  · intro h
    generalize hpath : [] = path at h
    cases h with
    | root => rfl
    | child => simp at hpath
  · rintro rfl
    exact .root

/-- Below the root, live nodes are those of the children that an evaluation goes on to. -/
theorem live_cons_iff :
    Live entry tree (index :: path) node ↔
      ∃ child, entry.GoesTo tree index child ∧ Live .form child path node := by
  constructor
  · intro h
    generalize hpath : index :: path = whole at h
    induction h generalizing path with
    | root => cases hpath
    | @child front parent node last hparent hgoes ih =>
      cases front with
      | nil =>
        cases hpath
        cases live_nil_iff.mp hparent
        exact ⟨node, hgoes, .root⟩
      | cons first front =>
        cases hpath
        obtain ⟨child, hgoes', hlive⟩ := ih rfl
        refine ⟨child, hgoes', hlive.child ?_⟩
        rw [Entry.along_form]
        exact hgoes
  · rintro ⟨child, hgoes, hlive⟩
    induction hlive with
    | root => exact Live.root.child hgoes
    | child _ hgoes' ih =>
      rw [Entry.along_form] at hgoes'
      exact ih.child hgoes'

theorem Entry.GoesTo.unique {child child' : Tree} (h : entry.GoesTo tree index child)
    (h' : entry.GoesTo tree index child') : child = child' := by
  obtain ⟨label, members⟩ := tree
  cases label with
  | list value => exact Option.some.inj (h.1.symm.trans h'.1)
  | null | number | word | unknown => exact h.elim

/-- A path leads to one node at most. -/
theorem Live.unique {node' : Tree} (h : Live entry tree path node)
    (h' : Live entry tree path node') : node = node' := by
  induction path generalizing entry tree with
  | nil => exact (live_nil_iff.mp h).trans (live_nil_iff.mp h').symm
  | cons index path ih =>
    obtain ⟨child, hgoes, hlive⟩ := live_cons_iff.mp h
    obtain ⟨child', hgoes', hlive'⟩ := live_cons_iff.mp h'
    obtain rfl := hgoes.unique hgoes'
    exact ih hlive hlive'

end

/-! ### Failures -/

/-- When a node can fail: as soon as an evaluation comes to it, or after the nodes below it. -/
inductive Stage where
  | entering
  | leaving

/-- The time of a stage at the end of a path. Times are compared as words of indices, so that nodes
are entered before those below them. A node is left like one more child, which follows all
others. -/
def Stage.time (path : List Nat) : Stage → List ℕ∞
  | entering => path.map (↑)
  | leaving => path.map (↑) ++ [⊤]

section

variable {α : Type} [LinearOrder α]

theorem nil_le_word (word : List α) : [] ≤ word :=
  not_lt.mp (List.not_lt_nil word)

theorem singleton_le_cons {a b : α} (h : a ≤ b) (word : List α) : [a] ≤ b :: word := by
  rcases h.lt_or_eq with h | rfl
  · exact (List.cons_lt_cons_iff.mpr (.inl h)).le
  · exact List.cons_le_cons a (nil_le_word word)

end

theorem Stage.time_cons (stage : Stage) (index : Nat) (path : List Nat) :
    stage.time (index :: path) = ↑index :: stage.time path := by
  cases stage <;> rfl

/-- No two stages have the same time. -/
theorem Stage.time_inj {stage stage' : Stage} {path path' : List Nat}
    (h : stage.time path = stage'.time path') : path = path' ∧ stage = stage' := by
  induction path generalizing path' with
  | nil =>
    cases path' with
    | nil =>
      refine ⟨rfl, ?_⟩
      cases stage <;> cases stage' <;> first | rfl | cases h
    | cons index' path' =>
      rw [time_cons] at h
      cases stage <;> cases h
  | cons index path ih =>
    cases path' with
    | nil =>
      rw [time_cons] at h
      cases stage' <;> cases h
    | cons index' path' =>
      rw [time_cons, time_cons] at h
      obtain ⟨hindex, hpath⟩ := List.cons.inj h
      obtain ⟨rfl, rfl⟩ := ih hpath
      exact ⟨congrArg (· :: path) (Nat.cast_injective hindex), rfl⟩

/-- What a tree evaluates to on its own and without limits. -/
def Tree.result (tree : Tree) : Except Fault Tree :=
  (Evaluator.evaluate ⟨.unlimited, 0⟩ tree 0).outcome

/-- A node fails at a stage with a fault, and not because of a node below it. -/
inductive Fails (entry : Entry) : Tree → Stage → Fault → Prop
  | unknownTree {kind : String} {value : Option String} {children : List Tree} :
      Fails entry (.node (.unknown kind value) children) .entering (.unknownTree kind)
  | missingOperands {value : Option String} {members : List Tree} :
      entry.formOf members = .sum → members.length < 3 →
      Fails entry (.node (.list value) members) .entering (.missingOperands (members.length - 1))
  | integerOutOfRange {value : Option String} {head left right : Tree} {members : List Tree}
      {m n : Int} {children children' : List Tree} :
      entry.formOf (head :: left :: right :: members) = .sum →
      left.result = .ok (.node (.number m) children) →
      right.result = .ok (.node (.number n) children') → ¬ Signed64.InRange (m + n) →
      Fails entry (.node (.list value) (head :: left :: right :: members)) .leaving
        (.integerOutOfRange (m + n))

section

variable {entry : Entry} {value : Option String} {members : List Tree} {stage : Stage}
  {fault : Fault}

/-- Of all lists only sums fail by themselves. -/
theorem Fails.formOf_eq (h : Fails entry (.node (.list value) members) stage fault) :
    entry.formOf members = .sum := by
  cases h with
  | missingOperands hsum => exact hsum
  | integerOutOfRange hsum => exact hsum

theorem Fails.length_lt (h : Fails entry (.node (.list value) members) .entering fault) :
    members.length < 3 := by
  cases h with
  | missingOperands _ hshort => exact hshort

theorem Fails.unique {tree : Tree} {fault' : Fault} (h : Fails entry tree stage fault)
    (h' : Fails entry tree stage fault') : fault = fault' := by
  cases h with
  | unknownTree =>
    cases h'
    rfl
  | missingOperands =>
    cases h'
    rfl
  | integerOutOfRange _ hleft hright =>
    cases h' with
    | integerOutOfRange _ hleft' hright' =>
      cases hleft.symm.trans hleft'
      cases hright.symm.trans hright'
      rfl

end

/-- Of all failures of live nodes, the first in time is by a fault. -/
def FailsFirst (entry : Entry) (tree : Tree) (fault : Fault) : Prop :=
  ∃ path node stage, Live entry tree path node ∧ Fails (entry.along path) node stage fault ∧
    ∀ path' node' stage' fault', Live entry tree path' node' →
      Fails (entry.along path') node' stage' fault' → stage.time path ≤ stage'.time path'

/-- The first failure is one fault only. -/
theorem FailsFirst.unique {entry : Entry} {tree : Tree} {fault fault' : Fault}
    (h : FailsFirst entry tree fault) (h' : FailsFirst entry tree fault') : fault = fault' := by
  obtain ⟨path, node, stage, hlive, hfails, hfirst⟩ := h
  obtain ⟨path', node', stage', hlive', hfails', hfirst'⟩ := h'
  have htime : stage.time path = stage'.time path' :=
    le_antisymm (hfirst _ _ _ _ hlive' hfails') (hfirst' _ _ _ _ hlive hfails)
  obtain ⟨rfl, rfl⟩ := Stage.time_inj htime
  obtain rfl := hlive.unique hlive'
  exact hfails.unique hfails'

/-! ### Regions -/

/-- A part of a tree: the paths to its live nodes, and the faults they fail with, each at its
time. -/
@[ext] structure Region where
  paths : Set (List Nat)
  faults : Set (List ℕ∞ × Fault)

namespace Region

instance : EmptyCollection Region := ⟨⟨∅, ∅⟩⟩

instance : Union Region := ⟨fun r s => ⟨r.paths ∪ s.paths, r.faults ∪ s.faults⟩⟩

/-- The region of a whole tree. -/
def ofTree (entry : Entry) (tree : Tree) : Region where
  paths := livePaths entry tree
  faults := {failure | ∃ path node stage, Live entry tree path node ∧
    Fails (entry.along path) node stage failure.2 ∧ failure.1 = stage.time path}

/-- The region of a root, without its failures. -/
def root : Region := ⟨{[]}, ∅⟩

/-- The region of the failures of a root. -/
def ofRoot (entry : Entry) (tree : Tree) : Region where
  paths := ∅
  faults := {failure | ∃ stage, Fails entry tree stage failure.2 ∧ failure.1 = stage.time []}

/-- A region as it is seen from the parent of its root. -/
def below (index : Nat) (r : Region) : Region where
  paths := List.cons index '' r.paths
  faults := {failure | ∃ time, failure.1 = ↑index :: time ∧ (time, failure.2) ∈ r.faults}

/-- The region of some children of a node, told by their indices. -/
def ofChildren (Chosen : Nat → Tree → Prop) : Region where
  paths := {path | ∃ index child, Chosen index child ∧
    path ∈ ((ofTree .form child).below index).paths}
  faults := {failure | ∃ index child, Chosen index child ∧
    failure ∈ ((ofTree .form child).below index).faults}

variable {entry : Entry} {tree head left right : Tree} {members : List Tree}
  {value : Option String} {r s : Region} {index : Nat}

@[simp] theorem paths_union : (r ∪ s).paths = r.paths ∪ s.paths := rfl

@[simp] theorem faults_union : (r ∪ s).faults = r.faults ∪ s.faults := rfl

@[simp] theorem paths_empty : (∅ : Region).paths = ∅ := rfl

@[simp] theorem faults_empty : (∅ : Region).faults = ∅ := rfl

@[simp] theorem union_empty (r : Region) : r ∪ ∅ = r := by
  ext <;> simp

theorem union_assoc (r s t : Region) : r ∪ s ∪ t = r ∪ (s ∪ t) := by
  ext <;> simp [or_assoc]

/-- A tree is its root, the children that an evaluation goes on to, and the failures of the
root. -/
theorem ofTree_eq (entry : Entry) (tree : Tree) :
    ofTree entry tree = root ∪ (ofChildren (entry.GoesTo tree) ∪ ofRoot entry tree) := by
  ext x
  case paths =>
    cases x with
    | nil => exact ⟨fun _ => .inl rfl, fun _ => ⟨tree, .root⟩⟩
    | cons index path =>
      constructor
      · rintro ⟨node, hlive⟩
        obtain ⟨child, hgoes, hlive⟩ := live_cons_iff.mp hlive
        exact .inr (.inl ⟨index, child, hgoes, path, ⟨node, hlive⟩, rfl⟩)
      · rintro (⟨⟨⟩⟩ | ⟨index, child, hgoes, path, ⟨node, hlive⟩, ⟨⟩⟩ | ⟨⟨⟩⟩)
        exact ⟨node, live_cons_iff.mpr ⟨child, hgoes, hlive⟩⟩
  case faults =>
    obtain ⟨time, fault⟩ := x
    constructor
    · rintro ⟨path, node, stage, hlive, hfails, htime⟩
      cases path with
      | nil =>
        obtain rfl := live_nil_iff.mp hlive
        exact .inr (.inr ⟨stage, hfails, htime⟩)
      | cons index path =>
        obtain ⟨child, hgoes, hlive⟩ := live_cons_iff.mp hlive
        refine .inr (.inl ⟨index, child, hgoes, stage.time path, ?_, path, node, stage, hlive, ?_,
          rfl⟩)
        · exact htime.trans (stage.time_cons index path)
        · rw [Entry.along_form]
          exact hfails
    · rintro (⟨⟨⟩⟩ | ⟨index, child, hgoes, time, htime, path, node, stage, hlive, hfails, rfl⟩ |
        ⟨stage, hfails, htime⟩)
      · rw [Entry.along_form] at hfails
        exact ⟨index :: path, node, stage, live_cons_iff.mpr ⟨child, hgoes, hlive⟩, hfails,
          htime.trans (stage.time_cons index path).symm⟩
      · exact ⟨[], tree, stage, .root, hfails, htime⟩

/-! ### The regions of trees -/

theorem ofChildren_false : ofChildren (fun _ _ => False) = ∅ := by
  ext <;> simp [ofChildren]

theorem ofChildren_or (Chosen Chosen' : Nat → Tree → Prop) :
    ofChildren (fun index child => Chosen index child ∨ Chosen' index child) =
      ofChildren Chosen ∪ ofChildren Chosen' := by
  ext <;> simp only [ofChildren, or_and_right, exists_or] <;> rfl

theorem ofChildren_one (index : Nat) (child : Tree) :
    ofChildren (fun index' child' => index' = index ∧ child' = child) =
      (ofTree .form child).below index := by
  ext <;> simp [ofChildren]

theorem ofRoot_eq_empty (h : ∀ stage fault, ¬ Fails entry tree stage fault) :
    ofRoot entry tree = ∅ := by
  ext x
  case paths => rfl
  case faults =>
    constructor
    · rintro ⟨stage, hfails, -⟩
      exact h _ _ hfails
    · exact False.elim

/-- A node that an evaluation does not go below and that does not fail is a step. -/
theorem ofTree_eq_root (hgoes : ∀ index child, ¬ entry.GoesTo tree index child)
    (hfails : ∀ stage fault, ¬ Fails entry tree stage fault) : ofTree entry tree = root := by
  have hchildren : entry.GoesTo tree = fun _ _ => False := by
    funext index child
    exact eq_false (hgoes index child)
  rw [ofTree_eq, hchildren, ofChildren_false, ofRoot_eq_empty hfails, union_empty, union_empty]

/-- The members of a list, the first of which has the given index. -/
def Numbered (first : Nat) (trees : List Tree) (index : Nat) (tree : Tree) : Prop :=
  first ≤ index ∧ trees[index - first]? = some tree

theorem ofTree_sequence (hform : entry.formOf members = .sequence) :
    ofTree entry (.node (.list value) members) = root ∪ ofChildren (Numbered 0 members) := by
  have hgoes : entry.GoesTo (.node (.list value) members) = Numbered 0 members := by
    funext index child
    simp [Entry.GoesTo, Numbered, hform]
  have hfails (stage : Stage) (fault : Fault) :
      ¬ Fails entry (.node (.list value) members) stage fault := by
    intro h
    cases hform.symm.trans h.formOf_eq
  rw [ofTree_eq, hgoes, ofRoot_eq_empty hfails, union_empty]

theorem ofTree_sum (hform : Tree.formOf (head :: left :: right :: members) = .sum) :
    ofTree .form (.node (.list value) (head :: left :: right :: members)) =
      root ∪ ((ofTree .form left).below 1 ∪ ((ofTree .form right).below 2 ∪
        ofRoot .form (.node (.list value) (head :: left :: right :: members)))) := by
  have hgoes : Entry.form.GoesTo (.node (.list value) (head :: left :: right :: members)) =
      fun index child => index = 1 ∧ child = left ∨ index = 2 ∧ child = right := by
    have hsum : Entry.form.formOf (head :: left :: right :: members) = .sum := hform
    funext index child
    rw [Entry.GoesTo, hsum, eq_iff_iff]
    constructor
    · rintro ⟨hchild, -, rfl | rfl⟩
      · exact .inl ⟨rfl, Option.some.inj hchild.symm⟩
      · exact .inr ⟨rfl, Option.some.inj hchild.symm⟩
    · rintro (⟨rfl, rfl⟩ | ⟨rfl, rfl⟩)
      · exact ⟨rfl, by simp, .inl rfl⟩
      · exact ⟨rfl, by simp, .inr rfl⟩
  rw [ofTree_eq, hgoes, ofChildren_or, ofChildren_one, ofChildren_one, union_assoc]

theorem numbered_cons (first : Nat) (tree : Tree) (trees : List Tree) :
    Numbered first (tree :: trees) =
      fun index child => index = first ∧ child = tree ∨ Numbered (first + 1) trees index child := by
  funext index child
  rw [Numbered, Numbered, eq_iff_iff]
  rcases Nat.lt_trichotomy index first with hlt | rfl | hgt
  · constructor
    · rintro ⟨hle, -⟩
      omega
    · rintro (⟨rfl, -⟩ | ⟨hle, -⟩) <;> omega
  · simp [eq_comm]
  · obtain ⟨gap, rfl⟩ : ∃ gap, index = first + 1 + gap := Nat.exists_eq_add_of_le hgt
    have hgap : first + 1 + gap - first = gap + 1 := by omega
    rw [hgap, Nat.add_sub_cancel_left, List.getElem?_cons_succ]
    constructor
    · rintro ⟨-, htree⟩
      exact .inr ⟨hgt, htree⟩
    · rintro (⟨heq, -⟩ | ⟨-, htree⟩)
      · omega
      · exact ⟨by omega, htree⟩

theorem mem_faults_of_entering {fault : Fault} (h : Fails entry tree .entering fault) :
    ([], fault) ∈ (ofTree entry tree).faults :=
  ⟨[], tree, .entering, .root, h, rfl⟩

/-! ### Before and after -/

/-- A region lies before the child with the given index. -/
structure Until (index : Nat) (r : Region) : Prop where
  paths : ∀ path ∈ r.paths, path < [index]
  faults : ∀ failure ∈ r.faults, failure.1 < [↑index]

/-- A region starts with the child with the given index or later. -/
structure From (index : Nat) (r : Region) : Prop where
  paths : ∀ path ∈ r.paths, [index] ≤ path
  faults : ∀ failure ∈ r.faults, [↑index] ≤ failure.1

theorem until_root (index : Nat) : root.Until index where
  paths := by
    rintro path rfl
    exact List.nil_lt_cons _ _
  faults := by
    rintro failure ⟨⟩

theorem until_below (index : Nat) (r : Region) : (r.below index).Until (index + 1) where
  paths := by
    rintro _ ⟨path, -, rfl⟩
    exact List.cons_lt_cons_iff.mpr (.inl (Nat.lt_succ_self index))
  faults := by
    rintro failure ⟨time, htime, -⟩
    rw [htime]
    exact List.cons_lt_cons_iff.mpr (.inl (Nat.cast_lt.mpr (Nat.lt_succ_self index)))

theorem From.union (hr : r.From index) (hs : s.From index) : (r ∪ s).From index where
  paths path hpath := hpath.elim (hr.paths path) (hs.paths path)
  faults failure hfailure := hfailure.elim (hr.faults failure) (hs.faults failure)

theorem from_below {first : Nat} (h : first ≤ index) (r : Region) : (r.below index).From first where
  paths := by
    rintro _ ⟨path, -, rfl⟩
    exact singleton_le_cons h path
  faults := by
    rintro failure ⟨time, htime, -⟩
    rw [htime]
    exact singleton_le_cons (Nat.cast_le.mpr h) time

theorem from_ofChildren {Chosen : Nat → Tree → Prop}
    (h : ∀ index' child, Chosen index' child → index ≤ index') :
    (ofChildren Chosen).From index where
  paths := by
    rintro path ⟨index', child, hchosen, hpath⟩
    exact (from_below (h index' child hchosen) _).paths path hpath
  faults := by
    rintro failure ⟨index', child, hchosen, hfailure⟩
    exact (from_below (h index' child hchosen) _).faults failure hfailure

theorem from_ofRoot (h : ∀ fault, ¬ Fails entry tree .entering fault) (index : Nat) :
    (ofRoot entry tree).From index where
  paths _ := False.elim
  faults := by
    rintro failure ⟨stage, hfails, htime⟩
    cases stage with
    | entering => exact absurd hfails (h _)
    | leaving =>
      rw [htime]
      exact singleton_le_cons le_top []

end Region

end PlusLisp
