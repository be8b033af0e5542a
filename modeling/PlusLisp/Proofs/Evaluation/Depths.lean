import PlusLisp.Proofs.Evaluation.Course

/-!
What limits make of a course can be told from the depths of its nodes.

`Limits.watch` goes through depths alone, counts steps and starts to count again at depth 0. It
stops where a course under limits stops, after as many steps (`Limits.outcome_follow`,
`Limits.steps_follow`). Courses that resemble each other, in what they end with and in their depths,
are therefore told apart by no limits (`Course.Resembles.agrees`).
-/

namespace PlusLisp

namespace Limits

variable {α : Type}

/-- Limits along nodes at the given depths, after a number of steps: the fault that they stop at, if
they do, and the steps taken until then. -/
def watch (limits : Limits) : List Int → Nat → Option Fault × Nat
  | [], steps => (none, steps)
  | depth :: depths, steps =>
    let steps := if depth = 0 then 0 else steps
    match limits.breach? depth steps with
    | some fault => (some fault, steps)
    | none => limits.watch depths (steps + 1)

/-- Limits stop among moments where they stop among the depths of the nodes. -/
theorem pass_eq_watch (limits : Limits) (moments : List Moment) (p : Progress) :
    ((limits.pass moments p).1, (limits.pass moments p).2.steps) =
      limits.watch (moments.filterMap Moment.depth?) p.steps := by
  induction moments generalizing p with
  | nil => rfl
  | cons moment moments ih =>
    cases isNode : moment.depth? with
    | some depth =>
      obtain rfl := Moment.depth?_eq_some_iff.mp isNode
      have entering : (p.entering depth).steps = if depth = 0 then 0 else p.steps :=
        apply_ite Progress.steps (depth = 0) _ p
      rw [List.filterMap_cons_some isNode, pass_node, watch, entering]
      cases breach : limits.breach? depth (if depth = 0 then 0 else p.steps) with
      | some fault => simp only [entering]
      | none => simp only [ih, Progress.step, entering]
    | none =>
      obtain ⟨q, steps, same⟩ := limits.pass_other isNode moments p
      rw [List.filterMap_cons_none isNode, same, ih, steps]

/-- Limits end a course early, or leave it what it ends with. -/
theorem outcome_follow (limits : Limits) (course : Course α) (p : Progress) :
    (limits.follow course p).1 =
      match (limits.watch course.depths p.steps).1 with
      | some fault => .error fault
      | none => course.outcome := by
  rw [Course.depths, ← pass_eq_watch, follow]
  rcases limits.pass course.moments p with ⟨_ | fault, q⟩ <;> rfl

theorem steps_follow (limits : Limits) (course : Course α) (p : Progress) :
    (limits.follow course p).2.steps = (limits.watch course.depths p.steps).2 := by
  rw [Course.depths, ← pass_eq_watch, follow]
  rcases limits.pass course.moments p with ⟨_ | fault, q⟩ <;> rfl

end Limits

/-- Two evaluations end with the same after the same number of steps, whatever they report. -/
structure Evaluation.Agrees (evaluation other : Evaluation) : Prop where
  outcome : evaluation.outcome = other.outcome
  steps : evaluation.steps = other.steps

/-- Two courses end with the same, and the nodes of the first are at the depths of those of the
second, in the same order and each changed in the same way. -/
structure Course.Resembles {α : Type} (change : Int → Int) (course other : Course α) : Prop where
  outcome : course.outcome = other.outcome
  depths : course.depths = other.depths.map change

namespace Course.Resembles

variable {α β : Type} {change : Int → Int} {course other : Course α}

/-- Courses resemble each other when both of their parts do. -/
theorem bind {next next' : α → Course β} (h : course.Resembles change other)
    (h' : ∀ value, (next value).Resembles change (next' value)) :
    (course >>= next).Resembles change (other >>= next') where
  outcome := by
    rw [outcome_bind, outcome_bind, h.outcome]
    exact congrArg _ (funext fun value => (h' value).outcome)
  depths := by
    rw [depths_bind, depths_bind, h.depths, h.outcome, List.map_append]
    cases other.outcome with
    | ok value => exact congrArg _ (h' value).depths
    | error fault => rfl

theorem node {depth depth' : Int} (hdepth : depth = change depth')
    (h : course.Resembles change other) :
    (do note (.node depth); course).Resembles change (do note (.node depth'); other) where
  outcome := h.outcome
  depths := List.cons_eq_cons.mpr ⟨hdepth, h.depths⟩

theorem concludeList {course other : Course Tree} (h : course.Resembles change other)
    (depth depth' : Int) :
    (course.concludeList depth).Resembles change (other.concludeList depth') where
  outcome := by rw [outcome_concludeList, outcome_concludeList, h.outcome]
  depths := by rw [depths_concludeList, depths_concludeList, h.depths]

/-- No limits tell courses apart that resemble each other and are equally deep. -/
theorem agrees {course other : Course Tree} (h : course.Resembles id other) (limits : Limits)
    (p : Progress) :
    (Evaluation.ofOutcome (limits.follow course p)).Agrees
      (.ofOutcome (limits.follow other p)) where
  outcome := by
    rw [Evaluation.ofOutcome, Evaluation.ofOutcome, limits.outcome_follow, limits.outcome_follow,
      h.outcome, h.depths, List.map_id]
  steps := by
    rw [Evaluation.ofOutcome, Evaluation.ofOutcome, limits.steps_follow, limits.steps_follow,
      h.depths, List.map_id]

end Course.Resembles

end PlusLisp
