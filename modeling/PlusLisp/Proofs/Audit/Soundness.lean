import PlusLisp.Audit
import PlusLisp.Proofs.Evaluation.Transparency

/-!
What an audit is good for. A tree that passes it is evaluated without a missing operand and within
any limits that leave room for the bounds of the audit, so that only a sum can stop it.

* `Tree.within_courseAt`: an evaluation visits no more nodes than there are and gets no deeper
  than the tree is high.
* `Audit.missingOperands_mem_arity`: every sum without operands that an evaluation can come upon
  is one that the audit finds.

Main statement: `Audit.sound`. The wording of a sum that is out of range holds that sum, and it
may be too long to be written when the numbers of the tree are out of range themselves
(`Audit.unwritable_sum`).
-/

namespace PlusLisp

/-! ### The extent of a course -/

/-- Depths above a bottom, and no more than a count of them. -/
structure Within (bottom : Int) (count : Nat) (depths : List Int) : Prop where
  shallow : ∀ depth ∈ depths, depth < bottom
  few : depths.length ≤ count

namespace Within

variable {bottom lower : Int} {count more : Nat} {depths later : List Int}

theorem nil : Within bottom count [] := ⟨by simp, Nat.zero_le _⟩

theorem mono (h : Within bottom count depths) (deep : bottom ≤ lower) (many : count ≤ more) :
    Within lower more depths :=
  ⟨fun depth mem => Int.lt_of_lt_of_le (h.shallow depth mem) deep, Nat.le_trans h.few many⟩

theorem append (h : Within bottom count depths) (h' : Within bottom more later) :
    Within bottom (count + more) (depths ++ later) := by
  constructor
  · intro depth mem
    rcases List.mem_append.mp mem with mem | mem
    · exact h.shallow depth mem
    · exact h'.shallow depth mem
  · rw [List.length_append]
    exact Nat.add_le_add h.few h'.few

variable {α β : Type}

theorem bind {course : Course α} {next : α → Course β} (h : Within bottom count course.depths)
    (h' : ∀ value, course.outcome = .ok value → Within bottom more (next value).depths) :
    Within bottom (count + more) (course >>= next).depths := by
  rw [Course.depths_bind]
  refine h.append ?_
  cases outcome : course.outcome with
  | ok value => exact h' value outcome
  | error fault => exact nil

end Within

namespace Tree

/-- A node adds itself, on the level above its children. -/
theorem within_node {label : Label} {children : List Tree} {depth : Int} {rest : List Int}
    (h : Within (depth + 1 + heightEach children) (sizeEach children) rest) :
    Within (depth + (node label children).height) (node label children).size (depth :: rest) := by
  rw [height, size]
  refine ⟨?_, Nat.succ_le_succ h.few⟩
  intro depth' mem
  rcases List.mem_cons.mp mem with rfl | mem
  · omega
  · have := h.shallow depth' mem
    omega

mutual

/-- An evaluation visits no more nodes than there are, and none below the last level. -/
theorem within_courseAt : ∀ (tree : Tree) (depth : Int),
    Within (depth + tree.height) tree.size (tree.courseAt depth).depths
  | node label children, depth => by
    cases label with
    | null value => exact within_node .nil
    | number value => exact within_node .nil
    | word text => exact within_node .nil
    | unknown kind value => exact within_node .nil
    | list value =>
      rw [courseAt, Course.depths_node, Course.depths_concludeList]
      refine within_node ?_
      cases formOf children with
      | unknown name => exact .nil
      | sum => exact within_courseSum children depth
      | sequence =>
        rw [Course.depths_bind_pure]
        exact within_courseEach children depth

private theorem within_courseSum : ∀ (members : List Tree) (depth : Int),
    Within (depth + 1 + heightEach members) (sizeEach members) (courseSum members depth).depths
  | [], _ | [_], _ | [_, _], _ => .nil
  | operation :: left :: right :: others, depth => by
    have operands : Within (depth + 1 + heightEach (operation :: left :: right :: others))
        (left.size + (right.size + 0))
        (courseSum (operation :: left :: right :: others) depth).depths := by
      rw [courseSum]
      refine ((within_courseAt left (depth + 1)).mono ?_ (Nat.le_refl _)).bind ?_
      · simp only [heightEach]
        omega
      · intro left _
        refine ((within_courseAt right (depth + 1)).mono ?_ (Nat.le_refl _)).bind ?_
        · simp only [heightEach]
          omega
        · intro right _
          exact .nil
    refine operands.mono (Int.le_refl _) ?_
    simp only [sizeEach]
    omega

theorem within_courseEach : ∀ (trees : List Tree) (depth : Int),
    Within (depth + 1 + heightEach trees) (sizeEach trees) (courseEach trees depth).depths
  | [], _ => .nil
  | tree :: trees, depth => by
    rw [courseEach, sizeEach]
    refine ((within_courseAt tree (depth + 1)).mono ?_ (Nat.le_refl _)).bind ?_
    · rw [heightEach]
      omega
    · intro value _
      rw [Course.depths_bind_pure]
      refine (within_courseEach trees depth).mono ?_ (Nat.le_refl _)
      rw [heightEach]
      omega

end

end Tree

/-- A course from depth 0 visits no more nodes than there are, and none below the last level. -/
theorem Entry.within_course (entry : Entry) (tree : Tree) :
    Within tree.height tree.size (entry.course tree).depths := by
  refine Entry.course_induction
    (motive := fun tree course => Within tree.height tree.size course.depths) ?_ ?_ entry tree
  · intro tree
    exact (tree.within_courseAt 0).mono (by omega) (Nat.le_refl _)
  · intro value forms
    rw [Entry.depths_program]
    exact (Tree.within_node (Tree.within_courseEach forms 0)).mono (by omega) (Nat.le_refl _)

namespace Audit

/-! ### What the checks find -/

/-- The operands are checked at every node. -/
theorem arity_eq (tree : Tree) : arity tree = tree.subtrees.filterMap shortSum? := by
  rw [arity, ← Tree.map_tree_visits, List.filterMap_map]
  rfl

theorem depth_eq_nil_iff {tree : Tree} {bound : Int} :
    depth tree bound = [] ↔ (tree.height : Int) ≤ bound := by
  simp [depth, Tree.depth_eq_height]

theorem nodes_eq_nil_iff {tree : Tree} {bound : Int} :
    nodes tree bound = [] ↔ (tree.size : Int) ≤ bound := by
  simp [nodes, Tree.length_visits]

/-- The parts of an audit. -/
theorem program_eq_nil_iff {tokens : List Token} {tree : Tree} {bounds : Bounds} :
    program tokens tree bounds = [] ↔
      balance tokens = [] ∧ arity tree = [] ∧ (tree.height : Int) ≤ bounds.depth ∧
        (tree.size : Int) ≤ bounds.nodes := by
  simp only [program, List.append_eq_nil_iff, depth_eq_nil_iff, nodes_eq_nil_iff, and_assoc]

/-- A list that is evaluated as a sum without its operands is a finding. -/
theorem shortSum?_eq_some {value : Option String} {members : List Tree}
    (isSum : Tree.formOf members = .sum) (short : members.length < 3) :
    shortSum? (.node (.list value) members) = some (.missingOperands (members.length - 1)) := by
  cases members with
  | nil => cases isSum
  | cons head operands =>
    have few : operands.length < 2 := Nat.lt_of_succ_lt_succ short
    cases word : head.wordText? with
    | none => simp [Tree.formOf, word] at isSum
    | some text =>
      obtain rfl : text = some "+" := by
        by_contra other
        simp [Tree.formOf, word, other] at isSum
      simp [shortSum?, word, few]

/-- **Every sum without operands that an evaluation comes upon is found.** -/
theorem missingOperands_mem_arity {tree : Tree} {given : Nat}
    (cause : Tree.Cause tree (.missingOperands given)) :
    Finding.missingOperands given ∈ arity tree := by
  cases cause with
  | missingOperands mem isSum short =>
    rw [arity_eq]
    exact List.mem_filterMap.mpr ⟨_, mem, shortSum?_eq_some isSum short⟩

/-! ### Soundness -/

/-- A tree all of whose nodes are of a known kind. -/
def IsKnown (tree : Tree) : Prop :=
  ∀ kind value children, .node (.unknown kind value) children ∉ tree.subtrees

/-- A tree all of whose numbers are in range. -/
def NumbersInRange (tree : Tree) : Prop :=
  ∀ n children, .node (.number n) children ∈ tree.subtrees → Signed64.InRange n

/-- The sum of two numbers in range can be written. -/
theorem isWritable_sum {tree : Tree} {m n : Int} (inRange : NumbersInRange tree)
    (left : tree.Supplies m) (right : tree.Supplies n) : Text.IsWritable (m + n) := by
  have ofSupplies {k : Int} (h : tree.Supplies k) : Signed64.InRange k := by
    rcases h with h | ⟨children, mem⟩
    · exact h
    · exact inRange k children mem
  exact (ofSupplies left).isWritable_add (ofSupplies right)

/-- A tree that passes an audit stays within limits that leave room for its bounds. -/
theorem allows_of_program {tokens : List Token} {tree : Tree} {bounds : Bounds} {limits : Limits}
    (passed : program tokens tree bounds = [])
    (room : ∀ d ∈ limits.depth, bounds.depth - 1 ≤ d)
    (room' : ∀ m ∈ limits.steps, bounds.nodes ≤ m) (entry : Entry) :
    limits.Allows 0 (entry.course tree).depths := by
  obtain ⟨-, -, low, few⟩ := program_eq_nil_iff.mp passed
  have within := entry.within_course tree
  rw [Limits.allows_iff]
  constructor
  · intro d isLimit depth mem
    have := within.shallow depth mem
    have := room d isLimit
    omega
  · intro _ m isLimit
    have := within.few
    have := room' m isLimit
    omega

/-- A tree of known kinds that passes an audit can only be stopped by a sum out of range. -/
theorem outcome_of_program {tokens : List Token} {tree : Tree} {bounds : Bounds}
    {evaluator : Evaluator} (known : IsKnown tree) (passed : program tokens tree bounds = [])
    (room : ∀ d ∈ evaluator.limits.depth, bounds.depth - 1 ≤ d)
    (room' : ∀ m ∈ evaluator.limits.steps, bounds.nodes ≤ m) {entry : Entry} {fault : Fault}
    (h : (evaluator.enter entry tree).outcome = .error fault) :
    ∃ m n, tree.Supplies m ∧ tree.Supplies n ∧ ¬ Signed64.InRange (m + n) ∧
      fault = .integerOutOfRange (m + n) := by
  obtain ⟨log, ends⟩ := (entry.startsAt_course tree).follow_of_allows (p := ⟨evaluator.steps, []⟩)
    (allows_of_program passed room room' entry)
  rw [Evaluator.enter_eq_follow, ends] at h
  cases Tree.cause_of_course h with
  | unknownTree mem => exact absurd mem (known _ _ _)
  | missingOperands mem isSum short =>
    have found := missingOperands_mem_arity (.missingOperands mem isSum short)
    rw [(program_eq_nil_iff.mp passed).2.1] at found
    cases found
  | integerOutOfRange left right outOfRange => exact ⟨_, _, left, right, outOfRange, rfl⟩

/-- What an evaluation is blamed for, apart from its limits, is in the tree. -/
theorem cause_of_evaluation {evaluator : Evaluator} {tree : Tree} {evaluation : Evaluation}
    {fault : Fault} (h : evaluation = evaluator.runProgram tree ∨
      ∃ depth, evaluation = evaluator.evaluate tree depth)
    (failure : evaluation.outcome = .error fault) (notLimit : fault.ownFamily ≠ .limit) :
    tree.Cause fault := by
  rcases h with rfl | ⟨depth, rfl⟩
  · rw [show evaluator.runProgram tree = evaluator.enter .program tree from rfl,
      Evaluator.enter_eq_follow] at failure
    rcases Limits.follow_eq_error failure with isLimit | failure
    · exact absurd isLimit notLimit
    · exact Tree.cause_of_course failure
  · rw [Evaluator.evaluate, Tree.evaluateAt_eq_follow] at failure
    rcases Limits.follow_eq_error failure with isLimit | failure
    · exact absurd isLimit notLimit
    · exact Tree.cause_of_courseAt tree depth fault failure

/-- **Audits are sound.** A tree of known kinds that passes one is evaluated to a value, within
any limits that leave room for the bounds, or else to a sum out of range, which is answered as
such unless it is too long to be written; and the audit finds every missing operand that stops an
evaluation of any tree. -/
theorem sound (tokens : List Token) (tree : Tree) (bounds : Bounds) (evaluator : Evaluator) :
    (IsKnown tree → program tokens tree bounds = [] →
      (∀ d ∈ evaluator.limits.depth, bounds.depth - 1 ≤ d) →
      (∀ m ∈ evaluator.limits.steps, bounds.nodes ≤ m) → ∀ entry,
      (∃ value, (evaluator.enter entry tree).outcome = .ok value) ∨
        ∃ n, (evaluator.enter entry tree).outcome = .error (.integerOutOfRange n) ∧
          ¬ Signed64.InRange n ∧
          (Fault.integerOutOfRange n).family =
            (if Text.IsWritable n then .range else .numeral) ∧
          (NumbersInRange tree → Text.IsWritable n)) ∧
    ∀ evaluation fault,
      (evaluation = evaluator.runProgram tree ∨
        ∃ depth, evaluation = evaluator.evaluate tree depth) →
      evaluation.outcome = .error fault → fault.family = .operands →
      ∃ given, fault = .missingOperands given ∧ .missingOperands given ∈ arity tree := by
  constructor
  · intro known passed room room' entry
    cases outcome : (evaluator.enter entry tree).outcome with
    | ok value => exact .inl ⟨value, rfl⟩
    | error fault =>
      obtain ⟨m, n, left, right, outOfRange, rfl⟩ :=
        outcome_of_program known passed room room' outcome
      right
      refine ⟨m + n, rfl, outOfRange, ?_, ?_⟩
      · simp [Fault.family, Fault.CanBeWorded, Fault.integers, Fault.ownFamily]
      · intro inRange
        exact isWritable_sum inRange left right
  · intro evaluation fault isEvaluation failure isOperands
    have own : fault.ownFamily = .operands := by
      unfold Fault.family at isOperands
      split at isOperands
      · exact isOperands
      · cases isOperands
    have cause := cause_of_evaluation isEvaluation failure (by simp [own])
    cases fault with
    | missingOperands given => exact ⟨given, rfl, missingOperands_mem_arity cause⟩
    | _ => simp [Fault.ownFamily] at own

/-! ### A sum that is too long to be written -/

/-- The greatest integer that can be written. -/
def greatest : Int := (Nat.pow 10 Text.longestNumeral : Nat) - 1

/-- A program of one sum. -/
def sumOf (m n : Int) : Tree := .list [.list [.word (some "+"), .number m, .number n]]

/-- The tokens of a program of one sum. -/
def tokensOfSum : List Token :=
  [.opening none, .word (some "+"), .number 1, .number 2, .closing none]

theorem isKnown_sumOf (m n : Int) : IsKnown (sumOf m n) := by
  intro kind value children mem
  simp [sumOf, Tree.subtrees_eq, Tree.list, Tree.word, Tree.number, Tree.children] at mem

theorem program_sumOf (m n : Int) : program tokensOfSum (sumOf m n) {} = [] := by
  refine program_eq_nil_iff.mpr ⟨rfl, ?_, ?_, ?_⟩
  · rw [arity_eq]
    rfl
  · exact show ((3 : Nat) : Int) ≤ 200 by decide
  · exact show ((5 : Nat) : Int) ≤ 100000 by decide

theorem run_sumOf {m n : Int} (h : ¬ Signed64.InRange (m + n)) :
    (Evaluator.runProgram ⟨.unlimited, 0⟩ (sumOf m n)).outcome =
      .error (.integerOutOfRange (m + n)) := by
  have refused : Signed64.check (m + n) = .error (.integerOutOfRange (m + n)) := if_neg h
  simp [Evaluator.runProgram, Evaluator.runForms, sumOf, Tree.list, Tree.word, Tree.number,
    Limits.breach?, Limits.unlimited, Tree.evaluateEach, Tree.evaluateAt, Tree.evaluateSum,
    Tree.formOf, Tree.wordText?, Tree.sum, refused, Tree.concludeList, Tree.collected,
    Evaluation.ofOutcome, Except.map, Progress.entering]

theorem not_isWritable_greatest : ¬ Text.IsWritable (greatest + greatest) := by
  have twice (k : Nat) (h : 2 ≤ k) : ¬ ((k : Int) - 1 + (k - 1)).natAbs < k := by omega
  have two (digits : Nat) (h : 1 ≤ digits) : 2 ≤ Nat.pow 10 digits :=
    Nat.le_trans (by decide) (Nat.pow_le_pow_right (by decide) h)
  exact twice _ (two Text.longestNumeral (by decide))

/-- Two numbers that are far out of range can have a sum that cannot be written. An audit has
nothing to say against them, and the run of the program is stopped, but its fault is answered as
one of that numeral and not as a sum out of range. -/
theorem unwritable_sum :
    IsKnown (sumOf greatest greatest) ∧
      program tokensOfSum (sumOf greatest greatest) {} = [] ∧
      (Evaluator.runProgram ⟨.unlimited, 0⟩ (sumOf greatest greatest)).outcome =
        .error (.integerOutOfRange (greatest + greatest)) ∧
      (Fault.integerOutOfRange (greatest + greatest)).family = .numeral ∧
      ¬ ∀ (tokens : List Token) (tree : Tree) (bounds : Bounds) (evaluator : Evaluator),
        IsKnown tree → program tokens tree bounds = [] →
        (∀ d ∈ evaluator.limits.depth, bounds.depth - 1 ≤ d) →
        (∀ m ∈ evaluator.limits.steps, bounds.nodes ≤ m) →
        ∀ fault, (evaluator.runProgram tree).outcome = .error fault → fault.family = .range := by
  have outOfRange : ¬ Signed64.InRange (greatest + greatest) := by
    rintro ⟨low, high⟩
    apply not_isWritable_greatest
    apply Text.isWritable_of_natAbs_lt
    simp only [Signed64.lowest, Signed64.highest] at low high
    omega
  have numeral : (Fault.integerOutOfRange (greatest + greatest)).family = .numeral := by
    apply if_neg
    intro worded
    exact not_isWritable_greatest (worded _ List.mem_cons_self)
  have run := run_sumOf outOfRange
  refine ⟨isKnown_sumOf _ _, program_sumOf _ _, run, numeral, ?_⟩
  intro claim
  have range := claim _ _ {} ⟨.unlimited, 0⟩ (isKnown_sumOf greatest greatest)
    (program_sumOf greatest greatest) (by simp [Limits.unlimited]) (by simp [Limits.unlimited])
    _ run
  rw [numeral] at range
  cases range

end Audit

end PlusLisp
