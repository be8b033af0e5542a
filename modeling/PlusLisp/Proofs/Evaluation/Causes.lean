import PlusLisp.Proofs.Evaluation.Course
import PlusLisp.Proofs.Tree.Preorder

/-!
Why evaluations fail. Apart from limits there are three causes, and each can be pointed at in the
tree: a node of an unknown kind, a sum without its operands, or two numbers whose sum is out of
range. The numbers are numbers of the tree or sums already found to be in range.

Main statement: `Tree.cause_of_course`.
-/

namespace PlusLisp

/-- The sum of two numbers in range can be written. -/
theorem Signed64.InRange.isWritable_add {m n : Int} (left : Signed64.InRange m)
    (right : Signed64.InRange n) : Text.IsWritable (m + n) := by
  obtain ⟨low, high⟩ := left
  obtain ⟨low', high'⟩ := right
  simp only [Signed64.lowest, Signed64.highest] at low high low' high'
  exact Text.isWritable_of_natAbs_lt (by omega)

namespace Tree

/-- An integer that a number in the course of a tree can have: one in range, or one that stands
in the tree. -/
def Supplies (tree : Tree) (n : Int) : Prop :=
  Signed64.InRange n ∨ ∃ children, node (.number n) children ∈ tree.subtrees

/-- The faults with a cause in a tree. -/
inductive Cause (tree : Tree) : Fault → Prop
  | unknownTree {kind : String} {value : Option String} {children : List Tree} :
      node (.unknown kind value) children ∈ tree.subtrees → Cause tree (.unknownTree kind)
  | missingOperands {value : Option String} {members : List Tree} :
      node (.list value) members ∈ tree.subtrees → formOf members = .sum → members.length < 3 →
      Cause tree (.missingOperands (members.length - 1))
  | integerOutOfRange {m n : Int} : Supplies tree m → Supplies tree n →
      ¬ Signed64.InRange (m + n) → Cause tree (.integerOutOfRange (m + n))

/-- What stands in a child stands in its parent. -/
theorem Supplies.of_child {label : Label} {trees : List Tree} {child : Tree} {n : Int}
    (h : child ∈ trees) (supplies : Supplies child n) : Supplies (node label trees) n := by
  rcases supplies with inRange | ⟨children, mem⟩
  · exact .inl inRange
  · exact .inr ⟨children, mem_subtrees_of_mem_child h mem⟩

/-- What a child can be blamed for, its parent can. -/
theorem Cause.of_child {label : Label} {trees : List Tree} {child : Tree} {fault : Fault}
    (h : child ∈ trees) (cause : Cause child fault) : Cause (node label trees) fault := by
  cases cause with
  | unknownTree mem => exact .unknownTree (mem_subtrees_of_mem_child h mem)
  | missingOperands mem isSum short =>
    exact .missingOperands (mem_subtrees_of_mem_child h mem) isSum short
  | integerOutOfRange left right outOfRange =>
    exact .integerOutOfRange (left.of_child h) (right.of_child h) outOfRange

/-- No limit has its cause in a tree. -/
theorem Cause.ownFamily_ne {tree : Tree} {fault : Fault} (cause : Cause tree fault) :
    fault.ownFamily ≠ .limit := by
  cases cause <;> simp [Fault.ownFamily]

/-! ### Sums -/

/-- A sum is refused when it is one of two numbers and out of range. -/
theorem sum_eq_error {left right : Tree} {fault : Fault} (h : left.sum right = .error fault) :
    ∃ m children n children', left = node (.number m) children ∧
      right = node (.number n) children' ∧ ¬ Signed64.InRange (m + n) ∧
      fault = .integerOutOfRange (m + n) := by
  unfold sum at h
  split at h
  · rename_i m children n children'
    unfold Signed64.check at h
    split at h
    · cases h
    · rename_i outOfRange
      injection h with h
      exact ⟨m, children, n, children', rfl, rfl, outOfRange, h.symm⟩
  · cases h

/-- A sum has a value when it is one of two numbers and in range, or when there is nothing to
add. -/
theorem sum_eq_ok {left right value : Tree} (h : left.sum right = .ok value) :
    value = null ∨ ∃ m children n children', left = node (.number m) children ∧
      right = node (.number n) children' ∧ Signed64.InRange (m + n) ∧ value = number (m + n) := by
  unfold sum at h
  split at h
  · rename_i m children n children'
    unfold Signed64.check at h
    split at h
    · rename_i inRange
      cases h
      exact .inr ⟨m, children, n, children', rfl, rfl, inRange, rfl⟩
    · cases h
  · cases h
    exact .inl rfl

/-- A sum that is a number is in range. -/
theorem inRange_of_sum {left right : Tree} {n : Int} {children : List Tree}
    (h : left.sum right = .ok (node (.number n) children)) : Signed64.InRange n := by
  obtain none | ⟨m, -, k, -, -, -, inRange, same⟩ := sum_eq_ok h
  · cases none
  · cases same
    exact inRange

/-- A number that a tree evaluates to stands in the tree or is a sum in range. -/
theorem supplies_of_courseAt {tree : Tree} {depth n : Int} {children : List Tree}
    (h : (tree.courseAt depth).outcome = .ok (node (.number n) children)) : Supplies tree n := by
  obtain ⟨label, trees⟩ := tree
  cases label with
  | null value => simp [courseAt, Course.outcome_note] at h
  | word text => simp [courseAt, Course.outcome_note, null] at h
  | unknown kind value => simp [courseAt, Course.outcome_note] at h
  | number value =>
    simp only [courseAt, Course.outcome_note, Course.outcome_pure, Except.ok.injEq, node.injEq,
      Label.number.injEq] at h
    obtain ⟨rfl, rfl⟩ := h
    exact .inr ⟨trees, self_mem_subtrees _⟩
  | list value =>
    rw [courseAt, Course.outcome_note, Course.outcome_concludeList] at h
    cases form : formOf trees with
    | unknown name => simp [form, Course.outcome_note, null] at h
    | sequence => simp [form, Course.outcome_bind_eq_ok, list] at h
    | sum =>
      simp only [form] at h
      match trees with
      | [] | [_] | [_, _] => simp [courseSum] at h
      | _ :: left :: right :: _ =>
        rw [courseSum, Course.outcome_bind_eq_ok] at h
        obtain ⟨left', -, h⟩ := h
        obtain ⟨right', -, h⟩ := Course.outcome_bind_eq_ok.mp h
        exact .inl (inRange_of_sum h)

/-! ### Causes -/

mutual

/-- When the course of a tree ends with a fault, the cause is in the tree. -/
theorem cause_of_courseAt : ∀ (tree : Tree) (depth : Int) (fault : Fault),
    (tree.courseAt depth).outcome = .error fault → Cause tree fault
  | node (.null _) _, depth, fault, h | node (.number _) _, depth, fault, h
  | node (.word _) _, depth, fault, h => by simp [courseAt, Course.outcome_note] at h
  | node (.unknown kind value) children, depth, fault, h => by
    simp only [courseAt, Course.outcome_note, Course.outcome_ofExcept, Except.error.injEq] at h
    exact h ▸ .unknownTree (self_mem_subtrees _)
  | node (.list value) children, depth, fault, h => by
    rw [courseAt, Course.outcome_note, Course.outcome_concludeList] at h
    cases form : formOf children with
    | unknown name => simp [form, Course.outcome_note] at h
    | sum =>
      simp only [form] at h
      exact cause_of_courseSum children depth fault h value form
    | sequence =>
      simp only [form, Course.outcome_bind_eq_error, Course.outcome_pure, reduceCtorEq, and_false,
        exists_false, or_false] at h
      obtain ⟨child, mem, cause⟩ := cause_of_courseEach children depth fault h
      exact cause.of_child mem

private theorem cause_of_courseSum : ∀ (members : List Tree) (depth : Int) (fault : Fault),
    (courseSum members depth).outcome = .error fault →
    ∀ value, formOf members = .sum → Cause (node (.list value) members) fault
  | [], _, _, h, value, form | [_], _, _, h, value, form | [_, _], _, _, h, value, form => by
    simp only [courseSum, Course.outcome_ofExcept, Except.error.injEq] at h
    exact h ▸ .missingOperands (self_mem_subtrees _) form (by simp)
  | _ :: left :: right :: _, depth, fault, h, value, form => by
    rw [courseSum, Course.outcome_bind_eq_error] at h
    rcases h with h | ⟨left', isLeft, h⟩
    · exact (cause_of_courseAt left (depth + 1) fault h).of_child (by simp)
    · rcases Course.outcome_bind_eq_error.mp h with h | ⟨right', isRight, h⟩
      · exact (cause_of_courseAt right (depth + 1) fault h).of_child (by simp)
      · obtain ⟨m, children, n, children', rfl, rfl, outOfRange, rfl⟩ := sum_eq_error h
        exact .integerOutOfRange ((supplies_of_courseAt isLeft).of_child (by simp))
          ((supplies_of_courseAt isRight).of_child (by simp)) outOfRange

theorem cause_of_courseEach : ∀ (trees : List Tree) (depth : Int) (fault : Fault),
    (courseEach trees depth).outcome = .error fault → ∃ tree ∈ trees, Cause tree fault
  | [], _, _, h => by simp [courseEach] at h
  | tree :: trees, depth, fault, h => by
    rw [courseEach, Course.outcome_bind_eq_error] at h
    rcases h with h | ⟨value, -, h⟩
    · exact ⟨tree, List.mem_cons_self, cause_of_courseAt tree (depth + 1) fault h⟩
    · simp only [Course.outcome_bind_eq_error, Course.outcome_pure, reduceCtorEq, and_false,
        exists_false, or_false] at h
      obtain ⟨tree', mem, cause⟩ := cause_of_courseEach trees depth fault h
      exact ⟨tree', List.mem_cons_of_mem _ mem, cause⟩

end

/-- When a course ends with a fault, the cause is in the tree that was handed in. -/
theorem cause_of_course {entry : Entry} {tree : Tree} {fault : Fault}
    (h : (entry.course tree).outcome = .error fault) : Cause tree fault := by
  revert h
  refine Entry.course_induction (motive := fun tree course =>
    course.outcome = .error fault → Cause tree fault) ?_ ?_ entry tree
  · intro tree
    exact cause_of_courseAt tree 0 fault
  · intro value forms h
    rw [Entry.course, Course.outcome_note] at h
    simp only [Course.outcome_bind_eq_error, Course.outcome_note, Course.outcome_pure,
      reduceCtorEq, and_false, exists_false, or_false] at h
    obtain ⟨form, mem, cause⟩ := cause_of_courseEach forms 0 fault h
    exact cause.of_child mem

end Tree

end PlusLisp
