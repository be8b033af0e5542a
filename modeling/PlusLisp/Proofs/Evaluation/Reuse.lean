import PlusLisp.Proofs.Evaluation.Depths
import PlusLisp.Proofs.Evaluation.Transparency

/-!
Evaluators that have been used before, and evaluations that start at another depth than 0.

What an evaluator keeps from one use to the next is its count of steps, and the count starts again
at each node at depth 0. There are three cases.

* From depth 0, the count starts again at the root, and what it was does not matter
  (`Evaluator.enter_fresh`).
* From a positive depth, the count never starts again. All depths and all counts are greater by what
  they were at the start, and so are limits in comparison with the limits that remain
  (`Limits.watch_add`).
* From a negative depth, the count starts again whenever the evaluation comes to depth 0, and ends
  with the nodes since the last time (`Limits.watch_unlimited_last`).

Main statement: `Evaluator.evaluate_reused`. A fault of the limits holds integers that the start
makes greater, so that it can be too long to be worded in one of two evaluations only
(`Evaluator.evaluate_reused_unwritable`).
-/

namespace PlusLisp

/-! ### Greater depths and greater counts -/

/-- A fault where all depths and all counts of steps are greater by some amounts. -/
def Fault.offset (start : Int) (before : Nat) : Fault → Fault
  | depthExceeded depth limit => depthExceeded (start + depth) (start + limit)
  | stepsExceeded steps limit => stepsExceeded (before + steps) (before + limit)
  | fault => fault

namespace Fault

variable {start : Int} {before : Nat} {fault : Fault}

@[simp] theorem ownFamily_offset (start : Int) (before : Nat) (fault : Fault) :
    (fault.offset start before).ownFamily = fault.ownFamily := by
  cases fault <;> rfl

theorem offset_eq_self (h : fault.ownFamily ≠ .limit) : fault.offset start before = fault := by
  cases fault with
  | depthExceeded | stepsExceeded => exact absurd rfl h
  | literalOutOfRange | unknownToken | unknownTree | badNumeral | integerOutOfRange
  | missingOperands => rfl

/-- Greater amounts change the answer to a fault only where one of the two can be worded and the
other one cannot. -/
theorem family_offset_iff :
    (fault.offset start before).family = fault.family ↔
      ((fault.offset start before).CanBeWorded ↔ fault.CanBeWorded) := by
  by_cases hlimit : fault.ownFamily = .limit
  · rw [family, family, ownFamily_offset, hlimit]
    by_cases h : fault.CanBeWorded <;> by_cases h' : (fault.offset start before).CanBeWorded <;>
      simp [h, h']
  · simp [offset_eq_self hlimit]

end Fault

namespace Limits

/-- The limits that remain to an evaluation from a depth and after a number of steps. -/
def remaining (limits : Limits) (start : Int) (before : Nat) : Limits where
  depth := limits.depth.map (· - start)
  steps := limits.steps.map (· - before)

theorem breach?_add (limits : Limits) (start : Int) (before : Nat) (depth : Int) (steps : Nat) :
    limits.breach? (start + depth) (before + steps) =
      ((limits.remaining start before).breach? depth steps).map (Fault.offset start before) := by
  have hdepth : (limits.remaining start before).depth.filter (· < depth) =
      (limits.depth.filter (· < start + depth)).map (· - start) := by
    rw [remaining, Option.filter_map]
    congr 3
    funext limit
    change decide (limit - start < depth) = decide (limit < start + depth)
    exact decide_eq_decide.mpr (by omega)
  have hsteps : (limits.remaining start before).steps.filter (· ≤ (steps : Int)) =
      (limits.steps.filter (· ≤ ((before + steps : Nat) : Int))).map (· - (before : Int)) := by
    rw [remaining, Option.filter_map]
    congr 3
    funext limit
    change decide (limit - before ≤ (steps : Int)) = decide (limit ≤ ((before + steps : Nat) : Int))
    exact decide_eq_decide.mpr (by omega)
  have hback (n limit : Int) : n + (limit - n) = limit := by omega
  rw [breach?, breach?, hdepth, hsteps]
  cases limits.depth.filter (· < start + depth) with
  | some limit => simp [Fault.offset, hback]
  | none =>
    cases limits.steps.filter (· ≤ ((before + steps : Nat) : Int)) with
    | some limit => simp [Fault.offset, hback, Int.add_assoc]
    | none => rfl

variable {limits : Limits} {depth : Int} {depths : List Int} {steps : Nat}

/-- A node at which the count does not start again. -/
theorem watch_cons (h : depth = 0 → steps = 0) :
    limits.watch (depth :: depths) steps =
      match limits.breach? depth steps with
      | some fault => (some fault, steps)
      | none => limits.watch depths (steps + 1) := by
  have hsteps : (if depth = 0 then 0 else steps) = steps := by
    split
    · exact (h ‹_›).symm
    · rfl
  cases hbreach : limits.breach? depth steps with
  | some fault | none => simp only [watch, hsteps, hbreach]

/-- At positive depths, limits behave as those that remain do. -/
theorem watch_add (hpositive : ∀ depth ∈ depths, 0 < depth) {start : Int} (hstart : 0 ≤ start)
    (limits : Limits) (before steps : Nat) :
    limits.watch (depths.map (start + ·)) (before + steps) =
      Prod.map (Option.map (Fault.offset start before)) (before + ·)
        ((limits.remaining start before).watch depths steps) := by
  induction depths generalizing steps with
  | nil => rfl
  | cons depth depths ih =>
    rw [List.forall_mem_cons] at hpositive
    rw [List.map_cons, watch_cons (by omega), watch_cons (by omega), breach?_add]
    cases (limits.remaining start before).breach? depth steps with
    | some fault => rfl
    | none => exact ih hpositive.2 (steps + 1)

theorem watch_root_add (hpositive : ∀ depth ∈ depths, 0 < depth) {start : Int} (hstart : 0 < start)
    (limits : Limits) (before : Nat) :
    limits.watch ((0 :: depths).map (start + ·)) before =
      Prod.map (Option.map (Fault.offset start before)) (before + ·)
        ((limits.remaining start before).watch (0 :: depths) 0) := by
  change limits.watch ((0 :: depths).map (start + ·)) (before + 0) = _
  rw [List.map_cons, watch_cons (by omega), watch_cons (fun _ => rfl), breach?_add]
  cases (limits.remaining start before).breach? 0 0 with
  | some fault => rfl
  | none => exact watch_add hpositive (Int.le_of_lt hstart) limits before 1

/-! ### Without limits -/

theorem watch_unlimited (h : 0 ∉ depths) (steps : Nat) :
    unlimited.watch depths steps = (none, steps + depths.length) := by
  induction depths generalizing steps with
  | nil => rfl
  | cons depth depths ih =>
    rw [List.mem_cons, not_or] at h
    rw [watch_cons (fun hzero => absurd hzero.symm h.1)]
    exact (ih h.2 (steps + 1)).trans (by rw [List.length_cons, Nat.add_right_comm, Nat.add_assoc])

/-- The count ends with the nodes since the last one at depth 0. -/
theorem watch_unlimited_last {after : List Int} (h : 0 ∉ after) (before : List Int) (steps : Nat) :
    unlimited.watch (before ++ 0 :: after) steps = (none, after.length + 1) := by
  induction before generalizing steps with
  | nil => exact (watch_unlimited h 1).trans (by rw [Nat.add_comm])
  | cons depth before ih => exact ih _

/-- Without limits nothing stops. -/
theorem watch_unlimited_fst (depths : List Int) (steps : Nat) :
    (unlimited.watch depths steps).1 = none := by
  induction depths generalizing steps with
  | nil => rfl
  | cons depth depths ih => exact ih _

end Limits

/-! ### Courses that start elsewhere -/

namespace Tree

mutual

/-- Courses from two depths end with the same, and all their depths differ by the same amount. -/
theorem resembles_courseAt_add (start : Int) : ∀ (tree : Tree) (depth : Int),
    (tree.courseAt (start + depth)).Resembles (start + ·) (tree.courseAt depth)
  | node (.null _) _, _ | node (.number _) _, _ | node (.word _) _, _
  | node (.unknown _ _) _, _ => ⟨rfl, rfl⟩
  | node (.list _) members, depth => by
    rw [courseAt, courseAt]
    refine .node rfl (.concludeList ?_ (start + depth) depth)
    cases formOf members with
    | unknown name => exact ⟨rfl, rfl⟩
    | sum => exact resembles_courseSum_add start members depth
    | sequence =>
      exact (resembles_courseEach_add start members depth).bind fun values => ⟨rfl, rfl⟩

private theorem resembles_courseSum_add (start : Int) : ∀ (members : List Tree) (depth : Int),
    (courseSum members (start + depth)).Resembles (start + ·) (courseSum members depth)
  | [], _ | [_], _ | [_, _], _ => ⟨rfl, rfl⟩
  | _ :: left :: right :: _, depth => by
    rw [courseSum, courseSum, Int.add_assoc]
    refine (resembles_courseAt_add start left (depth + 1)).bind fun left => ?_
    exact (resembles_courseAt_add start right (depth + 1)).bind fun right => ⟨rfl, rfl⟩

private theorem resembles_courseEach_add (start : Int) : ∀ (trees : List Tree) (depth : Int),
    (courseEach trees (start + depth)).Resembles (start + ·) (courseEach trees depth)
  | [], _ => ⟨rfl, rfl⟩
  | tree :: trees, depth => by
    rw [courseEach, courseEach, Int.add_assoc]
    refine (resembles_courseAt_add start tree (depth + 1)).bind fun value => ?_
    exact (resembles_courseEach_add start trees depth).bind fun values => ⟨rfl, rfl⟩

end

/-- A course that starts at a positive depth fares as it does at depth 0 under the limits that
remain. -/
theorem watch_courseAt (tree : Tree) (limits : Limits) {start : Int} (hstart : 0 < start)
    (before : Nat) :
    limits.watch (tree.courseAt start).depths before =
      Prod.map (Option.map (Fault.offset start before)) (before + ·)
        ((limits.remaining start before).watch (tree.courseAt 0).depths 0) := by
  obtain ⟨rest, hroot, hrest⟩ := tree.startsAt_courseAt 0
  have hresembles := tree.resembles_courseAt_add start 0
  rw [Int.add_zero] at hresembles
  rw [hresembles.depths, hroot, Course.depths_node]
  exact Limits.watch_root_add (fun depth hmem => Int.lt_of_add_one_le (hrest.least depth hmem))
    hstart limits before

end Tree

/-! ### Used evaluators -/

/-- How an evaluation that starts at a depth and after a number of steps compares with a fresh one
of the same tree, under the limits that remain. A fault is of the same family by itself. It is also
answered as one, unless of the two faults just one holds an integer too long to be written. -/
structure Evaluation.OffsetFrom (start : Int) (before : Nat) (evaluation fresh : Evaluation) :
    Prop where
  succeeds_iff : ∀ value, evaluation.outcome = .ok value ↔ fresh.outcome = .ok value
  fails : ∀ fault, fresh.outcome = .error fault →
    evaluation.outcome = .error (fault.offset start before) ∧
      (fault.offset start before).ownFamily = fault.ownFamily ∧
      ((fault.offset start before).family = fault.family ↔
        ((fault.offset start before).CanBeWorded ↔ fault.CanBeWorded))
  steps : evaluation.steps = before + fresh.steps

/-- The count of steps after nodes at the given depths: it has started again at the last node at
depth 0, or gone on from the count before if there is none. -/
structure CountsFrom (before : Nat) (depths : List Int) (count : Nat) : Prop where
  goesOn : 0 ∉ depths → count = before + depths.length
  startsAgain : ∀ earlier later, depths = earlier ++ 0 :: later → 0 ∉ later →
    count = later.length + 1

namespace Evaluator

/-- What an evaluator has been used for does not matter at depth 0. -/
theorem enter_fresh (limits : Limits) (steps : Nat) (entry : Entry) (tree : Tree) :
    (Evaluator.mk limits steps).enter entry tree = (Evaluator.mk limits 0).enter entry tree := by
  obtain ⟨rest, hrest, -⟩ := entry.startsAt_course tree
  rw [enter_eq_follow, enter_eq_follow, hrest, Limits.follow_node, Limits.follow_node]
  rfl

theorem evaluate_offsetFrom (limits : Limits) (steps : Nat) (tree : Tree) {depth : Int}
    (hdepth : 0 < depth) :
    ((Evaluator.mk limits steps).evaluate tree depth).OffsetFrom depth steps
      ((Evaluator.mk (limits.remaining depth steps) 0).evaluate tree 0) := by
  have hwatch := tree.watch_courseAt limits hdepth steps
  rw [evaluate, evaluate, Tree.evaluateAt_eq_follow, Tree.evaluateAt_eq_follow,
    Evaluation.ofOutcome, Evaluation.ofOutcome]
  have houtcome : (limits.follow (tree.courseAt depth) ⟨steps, []⟩).1 =
      ((limits.remaining depth steps).follow (tree.courseAt 0) ⟨0, []⟩).1.mapError
        (Fault.offset depth steps) := by
    rw [Limits.outcome_follow, Limits.outcome_follow, hwatch, Prod.map_fst,
      tree.outcome_courseAt depth 0]
    cases ((limits.remaining depth steps).watch (tree.courseAt 0).depths 0).1 with
    | some fault => rfl
    | none =>
      cases hcourse : (tree.courseAt 0).outcome with
      | ok value => rfl
      | error fault =>
        have hcause := tree.cause_of_courseAt 0 fault hcourse
        exact congrArg Except.error (Fault.offset_eq_self hcause.ownFamily_ne).symm
  constructor
  case succeeds_iff =>
    intro value
    simp only [houtcome]
    cases ((limits.remaining depth steps).follow (tree.courseAt 0) ⟨0, []⟩).1 <;>
      simp [Except.mapError]
  case fails =>
    intro fault hfresh
    simp only at hfresh ⊢
    rw [houtcome, hfresh]
    exact ⟨rfl, fault.ownFamily_offset depth steps, Fault.family_offset_iff⟩
  case steps =>
    rw [Limits.steps_follow, Limits.steps_follow, hwatch]
    rfl

theorem outcome_evaluate_unlimited (steps : Nat) (tree : Tree) (depth : Int) :
    ((Evaluator.mk .unlimited steps).evaluate tree depth).outcome =
      (tree.courseAt depth).outcome := by
  rw [evaluate, Tree.evaluateAt_eq_follow, Evaluation.ofOutcome, Limits.outcome_follow,
    Limits.watch_unlimited_fst]

theorem evaluate_countsFrom (steps : Nat) (tree : Tree) (depth : Int) :
    CountsFrom steps (tree.courseAt depth).depths
      ((Evaluator.mk .unlimited steps).evaluate tree depth).steps := by
  rw [evaluate, Tree.evaluateAt_eq_follow, Evaluation.ofOutcome, Limits.steps_follow]
  constructor
  case goesOn =>
    intro hnone
    rw [Limits.watch_unlimited hnone]
  case startsAgain =>
    intro earlier later hdepths hlater
    rw [hdepths, Limits.watch_unlimited_last hlater]

/-- **A used evaluator.** Whatever count of steps its earlier uses have left, an evaluator is as
good as new for programs and for trees at depth 0. From a positive depth it answers as a new one
does at depth 0 under the limits that remain, with all depths and counts greater by what they were
at the start. From a negative depth, without limits, it answers as at depth 0 and has counted since
the last node at depth 0. -/
theorem evaluate_reused (limits : Limits) (steps : Nat) (tree : Tree) :
    (∀ entry, (Evaluator.mk limits steps).enter entry tree =
      (Evaluator.mk limits 0).enter entry tree) ∧
    (∀ depth, 0 < depth →
      ((Evaluator.mk limits steps).evaluate tree depth).OffsetFrom depth steps
        ((Evaluator.mk (limits.remaining depth steps) 0).evaluate tree 0)) ∧
    ∀ depth, depth < 0 →
      ((Evaluator.mk .unlimited steps).evaluate tree depth).outcome =
          ((Evaluator.mk .unlimited steps).evaluate tree 0).outcome ∧
        CountsFrom steps (tree.courseAt depth).depths
          ((Evaluator.mk .unlimited steps).evaluate tree depth).steps := by
  refine ⟨fun entry => enter_fresh limits steps entry tree,
    fun depth hdepth => evaluate_offsetFrom limits steps tree hdepth, fun depth _ => ⟨?_, ?_⟩⟩
  · rw [outcome_evaluate_unlimited, outcome_evaluate_unlimited, tree.outcome_courseAt depth 0]
  · exact evaluate_countsFrom steps tree depth

/-- After three steps and from depth 2, the sum in `((+ 1 2) 4)` has its operands beyond the limit.
The same happens to a new evaluator under the limits that remain. From depth -1, the last node is at
depth 0 and the only one that counts. -/
theorem evaluate_reused_sum :
    let tree : Tree := .list [.list [.word (some "+"), .number 1, .number 2], .number 4]
    0 < (2 : Int) ∧ (-1 : Int) < 0 ∧
      ((Evaluator.mk ⟨some 3, some 8⟩ 3).evaluate tree 2).OffsetFrom 2 3
        ((Evaluator.mk ⟨some 1, some 5⟩ 0).evaluate tree 0) ∧
      ((Evaluator.mk .unlimited 3).evaluate tree (-1)).steps = 1 := by
  intro tree
  obtain ⟨-, hpositive, hnegative⟩ := evaluate_reused ⟨some 3, some 8⟩ 3 tree
  refine ⟨by decide, by decide, hpositive 2 (by decide), ?_⟩
  exact (hnegative (-1) (by decide)).2.startsAgain [-1, 0, 1, 1] [] rfl List.not_mem_nil

/-- A root may be at the greatest depth that is allowed, and its children may not. -/
theorem evaluate_below_limit (n : Int) (steps : Nat) :
    ((Evaluator.mk ⟨some n, none⟩ steps).evaluate (.list [.null]) n).outcome =
      .error (.depthExceeded (n + 1) n) := by
  have hroot (steps : Nat) : Limits.breach? ⟨some n, none⟩ n steps = none := by
    simp [Limits.breach?, Option.filter]
  have hchild (steps : Nat) : Limits.breach? ⟨some n, none⟩ (n + 1) steps =
      some (.depthExceeded (n + 1) n) := by
    have hdeeper : n < n + 1 := Int.lt_succ n
    simp only [Limits.breach?, Option.filter_some, hdeeper, decide_true, if_true]
  have hdepths : (Tree.courseAt (.list [.null]) n).depths = [n, n + 1] := by
    rw [Tree.list, Tree.courseAt, Course.depths_node, Course.depths_concludeList]
    rfl
  rw [evaluate, Tree.evaluateAt_eq_follow, Evaluation.ofOutcome, Limits.outcome_follow, hdepths]
  simp [Limits.watch, hroot, hchild]

/-- Greater amounts can make a difference. The child of a root at the greatest depth that can be
written is too deep for a fault that can be worded. -/
theorem evaluate_reused_unwritable :
    let n : Int := (Nat.pow 10 Text.longestNumeral : Nat) - 1
    let tree : Tree := .list [.null]
    ((Evaluator.mk ⟨some n, none⟩ 0).evaluate tree n).outcome =
        .error (.depthExceeded (n + 1) n) ∧
      (Fault.depthExceeded (n + 1) n).family = .numeral ∧
      ((Evaluator.mk (Limits.remaining ⟨some n, none⟩ n 0) 0).evaluate tree 0).outcome =
        .error (.depthExceeded 1 0) ∧
      (Fault.depthExceeded 1 0).family = .limit := by
  intro n tree
  have hnext : ¬ Text.IsWritable (n + 1) := by
    have hpower (k : Nat) : ¬ ((k : Int) - 1 + 1).natAbs < k := by omega
    exact hpower (Nat.pow 10 Text.longestNumeral)
  have hsmall (m : Int) (h : m.natAbs ≤ 1) : Text.IsWritable m :=
    Text.isWritable_of_natAbs_lt (Nat.lt_of_le_of_lt h (by decide))
  have hremaining : Limits.remaining ⟨some n, none⟩ n 0 = ⟨some 0, none⟩ := by
    simp [Limits.remaining]
  refine ⟨evaluate_below_limit n 0, if_neg ?_, ?_, if_pos ?_⟩
  · intro hworded
    exact hnext (hworded _ List.mem_cons_self)
  · rw [hremaining]
    exact evaluate_below_limit 0 0
  · exact List.forall_mem_cons.mpr ⟨hsmall 1 (by decide),
      List.forall_mem_singleton.mpr (hsmall 0 (by decide))⟩

end Evaluator

end PlusLisp
