import Mathlib.Algebra.Order.BigOperators.Group.List
import PlusLisp.Proofs.Evaluation.DeadCode
import PlusLisp.Proofs.Evaluation.FirstFailure
import PlusLisp.Proofs.Program.Runs

/-!
Sums of sums: what comes of an expression that does nothing but add.

The total of such an expression is exact. It is what the expression evaluates to when no
subexpression has a total out of range; otherwise the evaluation stops at the first that has
(`Addition.outcome_courseAt`). With numbers of both signs it depends on the order and the grouping
whether there is one, and without negative numbers it depends on the total alone
(`Addition.fits_iff_of_nonneg`).

Main statement: `Addition.exact_or_out_of_range`.
-/

namespace PlusLisp

open Signed64 (InRange)

theorem Tree.sum_number (m n : Int) :
    (number m).sum (number n) =
      if InRange (m + n) then .ok (number (m + n)) else .error (.integerOutOfRange (m + n)) := by
  rw [number, number, sum, Signed64.check]
  split <;> rfl

/-- An expression that does nothing but add: a number in range, or a sum of two such expressions. A
sum may come with things that no evaluation looks at: a value of its list, what is below its `+`,
and what stands behind its operands. -/
inductive Addition where
  | number (n : Int) (inRange : InRange n)
  | sum (value : Option String) (below : List Tree) (left right : Addition) (ignored : List Tree)

namespace Addition

/-- The tree of an expression. -/
def tree : Addition → Tree
  | number n _ => .number n
  | sum value below left right ignored =>
      .node (.list value) (.node (.word (some "+")) below :: left.tree :: right.tree :: ignored)

/-- The numbers that are added, from left to right. -/
def leaves : Addition → List Int
  | number n _ => [n]
  | sum _ _ left right _ => left.leaves ++ right.leaves

/-- The exact sum of the numbers that are added. -/
def total (e : Addition) : Int := e.leaves.sum

/-- The subexpressions that are evaluated, each behind those it is made of, from left to right. -/
def postorder : Addition → List Addition
  | number n inRange => [number n inRange]
  | sum value below left right ignored =>
      left.postorder ++ right.postorder ++ [sum value below left right ignored]

/-- Holds of the expressions in which no total is out of range. -/
def Fits (e : Addition) : Prop := ∀ part ∈ e.postorder, InRange part.total

/-- The first subexpression whose total is out of range. -/
def overflow? (e : Addition) : Option Addition :=
  e.postorder.find? fun part => decide (¬ InRange part.total)

variable {e part : Addition} {value : Option String} {below ignored : List Tree}
  {left right : Addition} {depth : Int}

@[simp] theorem total_number {n : Int} (inRange : InRange n) : (number n inRange).total = n :=
  List.sum_singleton

@[simp] theorem total_sum : (sum value below left right ignored).total = left.total + right.total :=
  List.sum_append

theorem self_mem_postorder (e : Addition) : e ∈ e.postorder := by
  cases e <;> simp [postorder]

theorem Fits.inRange (h : e.Fits) : InRange e.total := h e e.self_mem_postorder

theorem overflow?_eq_none_iff : e.overflow? = none ↔ e.Fits := by
  simp [overflow?, Fits]

@[simp] theorem overflow?_number {n : Int} (inRange : InRange n) :
    (number n inRange).overflow? = none := by
  simp [overflow?, postorder, inRange]

/-- The operands come first. -/
theorem overflow?_sum :
    (sum value below left right ignored).overflow? =
      left.overflow?.or (right.overflow?.or
        (if InRange (left.total + right.total) then none
          else some (sum value below left right ignored))) := by
  simp [overflow?, postorder, List.find?_append, List.find?_singleton]

theorem fits_sum_iff :
    (sum value below left right ignored).Fits ↔
      left.Fits ∧ right.Fits ∧ InRange (left.total + right.total) := by
  simp [Fits, postorder, or_imp, forall_and]

/-! ### Courses -/

/-- The list of a sum is entered, and then its operands. -/
theorem courseAt_sum :
    (sum value below left right ignored).tree.courseAt depth = (do
      Course.note (.node depth)
      Course.concludeList depth do
        let left ← left.tree.courseAt (depth + 1)
        let right ← right.tree.courseAt (depth + 1)
        .ofExcept (left.sum right)) := by
  rw [tree, Tree.courseAt, Tree.formOf_sum]
  rfl

/-- An expression comes to its total, unless a subexpression has a total out of range: then the
first one stops it. -/
theorem outcome_courseAt (e : Addition) (depth : Int) :
    (e.tree.courseAt depth).outcome =
      match e.overflow? with
      | none => .ok (.number e.total)
      | some part => .error (.integerOutOfRange part.total) := by
  induction e generalizing depth with
  | number n inRange =>
    rw [overflow?_number, total_number]
    rfl
  | sum value below left right ignored ihLeft ihRight =>
    rw [courseAt_sum, Course.outcome_note, Course.outcome_concludeList, Course.outcome_bind,
      ihLeft, overflow?_sum]
    cases left.overflow? with
    | some part => rfl
    | none =>
      simp only [Except.bind, Course.outcome_bind, ihRight]
      cases right.overflow? with
      | some part => rfl
      | none =>
        change (Tree.number left.total).sum (.number right.total) = _
        rw [Tree.sum_number, Option.none_or, Option.none_or]
        split <;> simp

theorem outcome_of_fits (h : e.Fits) (depth : Int) :
    (e.tree.courseAt depth).outcome = .ok (.number e.total) := by
  rw [outcome_courseAt, overflow?_eq_none_iff.mpr h]

/-- Each number that is added is a step, and each sum is one. -/
theorem steps_of_fits (h : e.Fits) (depth : Int) :
    (e.tree.courseAt depth).steps + 1 = 2 * e.leaves.length := by
  induction e generalizing depth with
  | number n inRange => rfl
  | sum value below left right ignored ihLeft ihRight =>
    obtain ⟨hleft, hright, -⟩ := fits_sum_iff.mp h
    have hdepths : ((sum value below left right ignored).tree.courseAt depth).depths =
        depth :: ((left.tree.courseAt (depth + 1)).depths ++
          ((right.tree.courseAt (depth + 1)).depths ++ [])) := by
      rw [courseAt_sum, Course.depths_node, Course.depths_concludeList, Course.depths_bind,
        outcome_of_fits hleft]
      simp only [Course.depths_bind, outcome_of_fits hright]
      rfl
    have hstepsLeft : (left.tree.courseAt (depth + 1)).depths.length + 1 = 2 * left.leaves.length :=
      ihLeft hleft (depth + 1)
    have hstepsRight :
        (right.tree.courseAt (depth + 1)).depths.length + 1 = 2 * right.leaves.length :=
      ihRight hright (depth + 1)
    rw [Course.steps, hdepths, leaves, List.append_nil, List.length_cons, List.length_append,
      List.length_append]
    omega

/-! ### Numbers of one sign -/

theorem leaves_sublist (h : part ∈ e.postorder) : part.leaves.Sublist e.leaves := by
  induction e with
  | number n inRange =>
    cases List.mem_singleton.mp h
    exact .refl _
  | sum value below left right ignored ihLeft ihRight =>
    rw [postorder, List.mem_append, List.mem_append, List.mem_singleton] at h
    obtain (h | h) | rfl := h
    · exact (ihLeft h).trans (List.sublist_append_left _ _)
    · exact (ihRight h).trans (List.sublist_append_right _ _)
    · exact .refl _

/-- Without negative numbers, no total is greater than that of all. -/
theorem fits_iff_of_nonneg (h : ∀ n ∈ e.leaves, 0 ≤ n) :
    e.Fits ↔ e.total ≤ Signed64.highest := by
  constructor
  · intro hfits
    exact hfits.inRange.2
  · intro htotal part hmem
    have hsub := leaves_sublist hmem
    have hlow : 0 ≤ part.total := List.sum_nonneg fun n hn => h n (hsub.mem hn)
    have hhigh : part.total ≤ e.total := hsub.sum_le_sum h
    exact ⟨Int.le_trans (by decide) hlow, Int.le_trans hhigh htotal⟩

/-- Programs that are read from text add no negative numbers. -/
theorem nonneg_of_builtFrom (h : e.tree.BuiltFrom Token.IsScanned) : ∀ n ∈ e.leaves, 0 ≤ n := by
  induction e with
  | number n inRange =>
    rw [leaves, List.forall_mem_singleton]
    exact (h.number_of_node).1
  | sum value below left right ignored ihLeft ihRight =>
    rw [leaves, List.forall_mem_append]
    cases h with
    | list hmembers => exact ⟨ihLeft (hmembers _ (by simp)), ihRight (hmembers _ (by simp))⟩

/-! ### Totals out of range -/

/-- The first total out of range is the sum of two totals in range, and so can be written. -/
theorem isWritable_of_overflow? (h : e.overflow? = some part) : Text.IsWritable part.total := by
  induction e with
  | number n inRange =>
    rw [overflow?_number] at h
    cases h
  | sum value below left right ignored ihLeft ihRight =>
    rw [overflow?_sum, Option.or_eq_some_iff, Option.or_eq_some_iff] at h
    obtain h | ⟨hleft, h | ⟨hright, h⟩⟩ := h
    · exact ihLeft h
    · exact ihRight h
    · split at h
      · cases h
      · cases h
        have hrangeLeft := (overflow?_eq_none_iff.mp hleft).inRange
        have hrangeRight := (overflow?_eq_none_iff.mp hright).inRange
        rw [total_sum]
        exact hrangeLeft.isWritable_add hrangeRight

/-! ### Evaluations -/

/-- What an evaluator without limits makes of an expression, after some steps taken before. -/
def evaluation (e : Addition) (steps : Nat) : Evaluation :=
  (Evaluator.mk .unlimited steps).evaluate e.tree 0

/-- What is to come of an expression: its total when that of no subexpression is out of range, and
otherwise a fault that shows the total of the first one that is. -/
structure Yields (e : Addition) (evaluation : Evaluation) : Prop where
  exact_iff : evaluation.outcome = .ok (.number e.total) ↔ e.Fits
  overflow : ¬ e.Fits → ∃ before part after fault, e.postorder = before ++ part :: after ∧
    (∀ earlier ∈ before, InRange earlier.total) ∧ ¬ InRange part.total ∧
    evaluation.outcome = .error fault ∧ fault.family = .range ∧
    fault.message = "Integer out of 64-bit range: " ++ toString part.total
  steps : ∀ value, evaluation.outcome = .ok value → evaluation.steps + 1 = 2 * e.leaves.length
  nonneg_iff : (∀ n ∈ e.leaves, 0 ≤ n) →
    ((∃ value, evaluation.outcome = .ok value) ↔ e.total ≤ Signed64.highest)

theorem outcome_evaluation (e : Addition) (steps : Nat) :
    (e.evaluation steps).outcome =
      match e.overflow? with
      | none => .ok (.number e.total)
      | some part => .error (.integerOutOfRange part.total) :=
  (Evaluator.enter_unlimited steps .form e.tree).1.trans (e.outcome_courseAt 0)

theorem steps_evaluation (e : Addition) (steps : Nat) :
    (e.evaluation steps).steps = (e.tree.courseAt 0).steps :=
  (Evaluator.enter_unlimited steps .form e.tree).2

theorem outcome_evaluation_of_fits (h : e.Fits) (steps : Nat) :
    (e.evaluation steps).outcome = .ok (.number e.total) := by
  rw [outcome_evaluation, overflow?_eq_none_iff.mpr h]

/-- Where a total is out of range, an evaluation is stopped by the first one. -/
theorem outcome_evaluation_of_not_fits (h : ¬ e.Fits) (steps : Nat) :
    ∃ part, e.overflow? = some part ∧
      (e.evaluation steps).outcome = .error (.integerOutOfRange part.total) ∧
      (Fault.integerOutOfRange part.total).CanBeWorded := by
  cases hfirst : e.overflow? with
  | none => exact absurd (overflow?_eq_none_iff.mp hfirst) h
  | some part =>
    refine ⟨part, rfl, ?_, List.forall_mem_singleton.mpr (isWritable_of_overflow? hfirst)⟩
    rw [outcome_evaluation, hfirst]

theorem fits_of_outcome_evaluation {result : Tree} {steps : Nat}
    (h : (e.evaluation steps).outcome = .ok result) : e.Fits := by
  by_contra hfits
  obtain ⟨part, -, hfault, -⟩ := outcome_evaluation_of_not_fits hfits steps
  cases h.symm.trans hfault

theorem yields (e : Addition) (steps : Nat) : e.Yields (e.evaluation steps) := by
  constructor
  case exact_iff => exact ⟨fits_of_outcome_evaluation, fun h => outcome_evaluation_of_fits h steps⟩
  case overflow =>
    intro hfits
    obtain ⟨part, hfirst, hfault, hworded⟩ := outcome_evaluation_of_not_fits hfits steps
    obtain ⟨houtside, before, after, hsplit, hbefore⟩ := List.find?_eq_some_iff_append.mp hfirst
    refine ⟨before, part, after, _, hsplit, ?_, by simpa using houtside, hfault, if_pos hworded,
      if_pos hworded⟩
    intro earlier hmem
    simpa using hbefore earlier hmem
  case steps =>
    intro result hresult
    rw [steps_evaluation]
    exact steps_of_fits (fits_of_outcome_evaluation hresult) 0
  case nonneg_iff =>
    intro hnonneg
    rw [← fits_iff_of_nonneg hnonneg]
    exact ⟨fun ⟨_, hresult⟩ => fits_of_outcome_evaluation hresult,
      fun h => ⟨_, outcome_evaluation_of_fits h steps⟩⟩

end Addition

/-- Holds of the evaluations that are stopped by an integer out of range. -/
def Evaluation.Overflows (evaluation : Evaluation) : Prop :=
  ∃ fault, evaluation.outcome = .error fault ∧ fault.family = .range

theorem Addition.overflows_of_not_fits {e : Addition} (h : ¬ e.Fits) (steps : Nat) :
    (e.evaluation steps).Overflows := by
  obtain ⟨_, _, _, fault, -, -, -, hfault, hfamily, -⟩ := (e.yields steps).overflow h
  exact ⟨fault, hfault, hfamily⟩

/-- **Sums are exact or out of range.** An expression that does nothing but add has its exact total
when no subexpression has a total out of range, after one step for each number and each sum in it.
Otherwise a fault shows the first total out of range. Where no negative number is added, as in all
programs read from text, the order and the grouping of the numbers do not matter. -/
theorem Addition.exact_or_out_of_range (steps : Nat) :
    (∀ e : Addition, e.Yields (e.evaluation steps)) ∧
    (∀ e other : Addition, (∀ n ∈ e.leaves, 0 ≤ n) → e.leaves.Perm other.leaves →
      (∃ n, (e.evaluation steps).outcome = .ok (.number n) ∧
          (other.evaluation steps).outcome = .ok (.number n)) ∨
        ((e.evaluation steps).Overflows ∧ (other.evaluation steps).Overflows)) ∧
    ∀ (text : String) (tree : Tree), Program.tree text = .ok tree →
      ∀ e : Addition, e.tree ∈ tree.subtrees → ∀ n ∈ e.leaves, 0 ≤ n := by
  refine ⟨fun e => e.yields steps, ?_, ?_⟩
  · intro e other hnonneg hperm
    have hnonneg' : ∀ n ∈ other.leaves, 0 ≤ n := fun n hmem => hnonneg n (hperm.mem_iff.mpr hmem)
    have htotal : other.total = e.total := hperm.sum_eq.symm
    have hfits : other.Fits ↔ e.Fits := by
      rw [fits_iff_of_nonneg hnonneg, fits_iff_of_nonneg hnonneg', htotal]
    by_cases h : e.Fits
    · left
      refine ⟨e.total, outcome_evaluation_of_fits h steps, ?_⟩
      rw [outcome_evaluation_of_fits (hfits.mpr h), htotal]
    · right
      exact ⟨overflows_of_not_fits h steps, overflows_of_not_fits (mt hfits.mp h) steps⟩
  · intro text tree htree e hmem
    obtain ⟨forms, rfl, hforms⟩ := Program.isCanonical_of_tree htree
    exact nonneg_of_builtFrom ((Tree.BuiltFrom.list hforms).of_mem_subtrees hmem)

-- With numbers of both signs, the grouping decides.
example :
    let greatest : Addition := .number Signed64.highest (by decide)
    let up : Addition := .number 1 (by decide)
    let down : Addition := .number (-1) (by decide)
    let first : Addition := .sum none [] greatest (.sum none [] up down []) []
    let second : Addition := .sum none [] (.sum none [] greatest up []) down []
    (first.evaluation 0).outcome = .ok (.number Signed64.highest) ∧
      (second.evaluation 0).outcome = .error (.integerOutOfRange (Signed64.highest + 1)) := by
  decide +kernel

end PlusLisp
