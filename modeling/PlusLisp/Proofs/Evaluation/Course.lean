import PlusLisp.Evaluator

/-!
The course of an evaluation: what happens, moment by moment, while nothing limits it. A node is
entered at a depth, a list that names no operation is met, an evaluation or a program ends. A
course ends with a value or with a fault, and neither depends on how much has been spent.

* `Tree.courseAt` is the course of a tree at a depth, and `Entry.course` the course of a tree that
  is handed to an evaluator in one of the two ways there are.
* `Limits.follow` lets limits watch over a course: they see its moments one after the other and
  stop it at the first node that breaches one of them.
* `Tree.evaluateAt_eq_follow` and `Evaluator.enter_eq_follow`: that is all that limits do. An
  evaluation under limits is its course, followed as far as they allow.
-/

namespace PlusLisp

/-! ### Moments and courses -/

/-- What happens in the course of an evaluation. -/
inductive Moment where
  /-- A node at a depth is about to be evaluated. -/
  | node (depth : Int)
  /-- A list turns out to name no operation. -/
  | unknownOperation (name : Option String)
  /-- A list at depth 0 has its value. -/
  | evaluated
  /-- A program of so many forms has its value. -/
  | finished (forms : Nat)
  deriving DecidableEq, Repr

/-- The depth of the node that a moment enters, if it enters one. -/
def Moment.depth? : Moment → Option Int
  | node depth => some depth
  | _ => none

theorem Moment.depth?_eq_some_iff {moment : Moment} {depth : Int} :
    moment.depth? = some depth ↔ moment = .node depth := by
  constructor
  · intro h
    cases moment with
    | node depth' =>
      obtain rfl : depth' = depth := Option.some.inj h
      rfl
    | unknownOperation name => cases h
    | evaluated => cases h
    | finished forms => cases h
  · rintro rfl
    rfl

/-- A course: what it ends with, and its moments in order. -/
structure Course (α : Type) where
  outcome : Except Fault α
  moments : List Moment

namespace Course

variable {α β : Type}

/-- The course on which nothing happens. -/
def ofExcept (outcome : Except Fault α) : Course α := ⟨outcome, []⟩

/-- The course of a single moment. -/
def note (moment : Moment) : Course Unit := ⟨.ok (), [moment]⟩

/-- One course after the other. A course that ends with a fault has no successor. -/
def bind (course : Course α) (next : α → Course β) : Course β :=
  match course.outcome with
  | .ok value => ⟨(next value).outcome, course.moments ++ (next value).moments⟩
  | .error fault => ⟨.error fault, course.moments⟩

instance : Monad Course where
  pure value := ofExcept (.ok value)
  bind := bind

/-- The end of the course of a list at a depth: at depth 0 its value is the last moment. -/
def concludeList (depth : Int) (course : Course Tree) : Course Tree := do
  let value ← course
  if depth = 0 then note .evaluated
  return value

/-- The depths of the nodes that are evaluated, in order. -/
def depths (course : Course α) : List Int := course.moments.filterMap Moment.depth?

/-- The number of nodes that are evaluated. -/
def steps (course : Course α) : Nat := course.depths.length

/-- The greatest depth at which a node is evaluated. -/
def deepest (course : Course α) : Int := course.depths.max?.getD 0

/-- A course fails when one of its two parts does. -/
theorem outcome_bind_eq_error {course : Course α} {next : α → Course β} {fault : Fault} :
    (course >>= next).outcome = .error fault ↔
      course.outcome = .error fault ∨
        ∃ value, course.outcome = .ok value ∧ (next value).outcome = .error fault := by
  obtain ⟨outcome, moments⟩ := course
  cases outcome <;> simp [Bind.bind, bind]

/-- A course comes to a value when both of its parts do. -/
theorem outcome_bind_eq_ok {course : Course α} {next : α → Course β} {result : β} :
    (course >>= next).outcome = .ok result ↔
      ∃ value, course.outcome = .ok value ∧ (next value).outcome = .ok result := by
  obtain ⟨outcome, moments⟩ := course
  cases outcome <;> simp [Bind.bind, bind]

/-- What two courses end with is what both parts end with. -/
theorem outcome_bind (course : Course α) (next : α → Course β) :
    (course >>= next).outcome = course.outcome.bind fun value => (next value).outcome := by
  obtain ⟨outcome, moments⟩ := course
  cases outcome <;> rfl

@[simp] theorem outcome_pure (value : α) : (pure value : Course α).outcome = .ok value := rfl

@[simp] theorem outcome_ofExcept (outcome : Except Fault α) :
    (ofExcept outcome).outcome = outcome := rfl

/-- What happens before a course does not change what it ends with. -/
theorem outcome_note (moment : Moment) (rest : Course α) :
    (do note moment; rest).outcome = rest.outcome := rfl

/-- The end of a list does not change what its course ends with. -/
@[simp] theorem outcome_concludeList (depth : Int) (course : Course Tree) :
    (course.concludeList depth).outcome = course.outcome := by
  obtain ⟨outcome, moments⟩ := course
  cases outcome with
  | error fault => rfl
  | ok value =>
    by_cases h : depth = 0
    · subst h
      rfl
    · simp [concludeList, h, Bind.bind, bind]

@[simp] theorem depths_pure (value : α) : (pure value : Course α).depths = [] := rfl

/-- Of the nodes of two courses, those of the first come first. -/
theorem depths_bind (course : Course α) (next : α → Course β) :
    (course >>= next).depths =
      course.depths ++
        match course.outcome with
        | .ok value => (next value).depths
        | .error _ => [] := by
  obtain ⟨outcome, moments⟩ := course
  cases outcome with
  | ok value => exact List.filterMap_append
  | error fault => exact (List.append_nil _).symm

/-- What is made of the value of a course adds no nodes. -/
@[simp] theorem depths_bind_pure (course : Course α) (result : α → β) :
    (do let value ← course; return result value : Course β).depths = course.depths := by
  rw [depths_bind]
  cases course.outcome <;> exact List.append_nil _

/-- Entering a node adds its depth. -/
theorem depths_node (depth : Int) (rest : Course α) :
    (do note (.node depth); rest).depths = depth :: rest.depths := rfl

/-- The moment at the end of a list enters no node. -/
@[simp] theorem depths_concludeList (depth : Int) (course : Course Tree) :
    (course.concludeList depth).depths = course.depths := by
  rw [concludeList, depths_bind]
  cases course.outcome with
  | error fault => exact List.append_nil _
  | ok value =>
    by_cases h : depth = 0
    · subst h
      exact List.append_nil _
    · simp [h]

end Course

/-! ### The courses of trees -/

namespace Tree

mutual

/-- The course of a tree at a depth. -/
def courseAt : Tree → Int → Course Tree
  | node label children, depth => do
    Course.note (.node depth)
    match label with
    | .null _ | .number _ => return node label children
    | .word _ => return null
    | .unknown kind _ => .ofExcept (.error (.unknownTree kind))
    | .list _ =>
      Course.concludeList depth <|
        match formOf children with
        | .unknown name => do
          Course.note (.unknownOperation name)
          return null
        | .sum => courseSum children depth
        | .sequence => do
          let values ← courseEach children depth
          return list values

/-- The course of a sum at a depth, given the operation and its operands. -/
def courseSum : List Tree → Int → Course Tree
  | _ :: left :: right :: _, depth => do
    let left ← courseAt left (depth + 1)
    let right ← courseAt right (depth + 1)
    .ofExcept (left.sum right)
  | members, _ => .ofExcept (.error (.missingOperands (members.length - 1)))

/-- The course of the members of a list at a depth. -/
def courseEach : List Tree → Int → Course (List Tree)
  | [], _ => return []
  | tree :: trees, depth => do
    let value ← courseAt tree (depth + 1)
    let values ← courseEach trees depth
    return if value.isNull then values else value :: values

end

mutual

/-- What the course of a tree ends with does not depend on the depth. -/
theorem outcome_courseAt : ∀ (tree : Tree) (depth depth' : Int),
    (tree.courseAt depth).outcome = (tree.courseAt depth').outcome
  | node (.null _) _, _, _ | node (.number _) _, _, _ | node (.word _) _, _, _
  | node (.unknown _ _) _, _, _ => rfl
  | node (.list _) members, depth, depth' => by
    rw [courseAt, courseAt, Course.outcome_note, Course.outcome_note,
      Course.outcome_concludeList, Course.outcome_concludeList]
    cases formOf members with
    | unknown name => rfl
    | sum => exact outcome_courseSum members depth depth'
    | sequence =>
      simp only [Course.outcome_bind, outcome_courseEach members depth depth']

private theorem outcome_courseSum : ∀ (members : List Tree) (depth depth' : Int),
    (courseSum members depth).outcome = (courseSum members depth').outcome
  | [], _, _ | [_], _, _ | [_, _], _, _ => rfl
  | _ :: left :: right :: _, depth, depth' => by
    simp only [courseSum, Course.outcome_bind,
      outcome_courseAt left (depth + 1) (depth' + 1),
      outcome_courseAt right (depth + 1) (depth' + 1)]

private theorem outcome_courseEach : ∀ (trees : List Tree) (depth depth' : Int),
    (courseEach trees depth).outcome = (courseEach trees depth').outcome
  | [], _, _ => rfl
  | tree :: trees, depth, depth' => by
    simp only [courseEach, Course.outcome_bind,
      outcome_courseAt tree (depth + 1) (depth' + 1), outcome_courseEach trees depth depth']

end

end Tree

/-- How a tree is handed to an evaluator: as a program, or as a form at depth 0. -/
inductive Entry where
  | program
  | form
  deriving DecidableEq, Repr

/-- What an evaluator makes of a tree. -/
def Evaluator.enter (evaluator : Evaluator) : Entry → Tree → Evaluation
  | .program, tree => evaluator.runProgram tree
  | .form, tree => evaluator.evaluate tree 0

/-- The course of a tree. That of a program takes its forms one after the other, whatever the
first is. -/
def Entry.course : Entry → Tree → Course Tree
  | .program, .node (.list _) forms => do
    Course.note (.node 0)
    let values ← Tree.courseEach forms 0
    Course.note (.finished forms.length)
    return .list values
  | _, tree => tree.courseAt 0

/-- A program visits its root and then its forms. -/
theorem Entry.depths_program (value : Option String) (forms : List Tree) :
    (Entry.program.course (.node (.list value) forms)).depths =
      0 :: (Tree.courseEach forms 0).depths := by
  rw [Entry.course, Course.depths_node, Course.depths_bind]
  cases (Tree.courseEach forms 0).outcome <;> exact congrArg _ (List.append_nil _)

/-- A property of courses holds of both entries when it holds of all trees at depth 0 and of all
programs that are lists. -/
theorem Entry.course_induction {motive : Tree → Course Tree → Prop}
    (form : ∀ tree : Tree, motive tree (tree.courseAt 0))
    (program : ∀ value forms, motive (.node (.list value) forms)
      (Entry.program.course (.node (.list value) forms))) (entry : Entry) (tree : Tree) :
    motive tree (entry.course tree) := by
  cases entry with
  | form => exact form tree
  | program =>
    obtain ⟨label, forms⟩ := tree
    cases label with
    | list value => exact program value forms
    | null value => exact form _
    | number value => exact form _
    | word text => exact form _
    | unknown kind value => exact form _

/-! ### Limits along a course -/

namespace Limits

variable {α β : Type}

/-- One moment under limits: the fault that stops the course there, and the progress made. -/
def take (limits : Limits) (moment : Moment) (p : Progress) : Option Fault × Progress :=
  match moment with
  | .node depth =>
    let p := p.entering depth
    match limits.breach? depth p.steps with
    | some fault => (some fault, p)
    | none => (none, p.step)
  | .unknownOperation name => (none, p.report (.unknownOperation name))
  | .evaluated => (none, p.report (.evaluated p.steps))
  | .finished forms => (none, p.report (.finished forms p.steps))

/-- Moments under limits, one after the other. -/
def pass (limits : Limits) : List Moment → Progress → Option Fault × Progress
  | [], p => (none, p)
  | moment :: moments, p =>
    match limits.take moment p with
    | (some fault, p) => (some fault, p)
    | (none, p) => limits.pass moments p

/-- A course under limits. -/
def follow (limits : Limits) (course : Course α) (p : Progress) : Outcome α :=
  match limits.pass course.moments p with
  | (some fault, p) => (.error fault, p)
  | (none, p) => (course.outcome, p)

/-- Limits look at a node before it takes its step. -/
theorem pass_node (limits : Limits) (depth : Int) (moments : List Moment) (p : Progress) :
    limits.pass (.node depth :: moments) p =
      match limits.breach? depth (p.entering depth).steps with
      | some fault => (some fault, p.entering depth)
      | none => limits.pass moments (p.entering depth).step := by
  rw [pass, take]
  cases limits.breach? depth (p.entering depth).steps <;> rfl

/-- Limits let every other moment pass, and it takes no step. -/
theorem pass_other (limits : Limits) {moment : Moment} (h : moment.depth? = none)
    (moments : List Moment) (p : Progress) :
    ∃ q, q.steps = p.steps ∧ limits.pass (moment :: moments) p = limits.pass moments q := by
  cases moment with
  | node depth => simp [Moment.depth?] at h
  | unknownOperation name => exact ⟨p.report (.unknownOperation name), rfl, rfl⟩
  | evaluated => exact ⟨p.report (.evaluated p.steps), rfl, rfl⟩
  | finished forms => exact ⟨p.report (.finished forms p.steps), rfl, rfl⟩

/-- Limits see the moments of a course in two parts as they see them in one. -/
theorem pass_append (limits : Limits) (before after : List Moment) (p : Progress) :
    limits.pass (before ++ after) p =
      match limits.pass before p with
      | (some fault, p) => (some fault, p)
      | (none, p) => limits.pass after p := by
  induction before generalizing p with
  | nil => rfl
  | cons moment before ih =>
    rw [List.cons_append, pass, pass]
    rcases limits.take moment p with ⟨_ | fault, p'⟩
    · exact ih p'
    · rfl

@[simp] theorem follow_ofExcept (limits : Limits) (outcome : Except Fault α) (p : Progress) :
    limits.follow (.ofExcept outcome) p = (outcome, p) := rfl

@[simp] theorem follow_pure (limits : Limits) (value : α) (p : Progress) :
    limits.follow (pure value) p = (.ok value, p) := rfl

@[simp] theorem follow_note (limits : Limits) (moment : Moment) (p : Progress) :
    limits.follow (.note moment) p =
      match limits.take moment p with
      | (some fault, p) => (.error fault, p)
      | (none, p) => (.ok (), p) := by
  simp only [follow, Course.note, pass]
  rcases limits.take moment p with ⟨_ | fault, p'⟩ <;> rfl

/-- Limits let the second course begin when the first has come to its value. -/
theorem follow_bind (limits : Limits) (course : Course α) (next : α → Course β) (p : Progress) :
    limits.follow (course >>= next) p =
      match limits.follow course p with
      | (.ok value, p) => limits.follow (next value) p
      | (.error fault, p) => (.error fault, p) := by
  obtain ⟨outcome, moments⟩ := course
  cases outcome with
  | ok value =>
    simp only [follow, Bind.bind, Course.bind, pass_append]
    rcases limits.pass moments p with ⟨_ | fault, p'⟩ <;> rfl
  | error fault =>
    simp only [follow, Bind.bind, Course.bind]
    rcases limits.pass moments p with ⟨_ | fault', p'⟩ <;> rfl

/-- Limits look at a node before anything comes of it. -/
theorem follow_node (limits : Limits) (depth : Int) (rest : Course α) (p : Progress) :
    limits.follow (do Course.note (.node depth); rest) p =
      match limits.breach? depth (p.entering depth).steps with
      | some fault => (.error fault, p.entering depth)
      | none => limits.follow rest (p.entering depth).step := by
  rw [follow_bind, follow_note, take]
  cases limits.breach? depth (p.entering depth).steps <;> rfl

/-- The end of a list is the same along its course. -/
theorem follow_concludeList (limits : Limits) (depth : Int) (course : Course Tree)
    (p : Progress) :
    limits.follow (course.concludeList depth) p =
      Tree.concludeList depth (limits.follow course p) := by
  rw [Course.concludeList, follow_bind]
  rcases limits.follow course p with ⟨fault | value, p'⟩
  · rfl
  · by_cases h : depth = 0 <;> simp [h, follow_bind, take, Tree.concludeList]

end Limits

/-! ### Evaluations follow their courses -/

namespace Tree

mutual

/-- An evaluation under limits is its course, followed as far as they allow. -/
theorem evaluateAt_eq_follow (limits : Limits) :
    ∀ (tree : Tree) (depth : Int) (p : Progress),
      tree.evaluateAt limits depth p = limits.follow (tree.courseAt depth) p
  | node (.null _) _, depth, p | node (.number _) _, depth, p | node (.word _) _, depth, p
  | node (.unknown _ _) _, depth, p => by
    rw [evaluateAt, courseAt, Limits.follow_node]
    cases limits.breach? depth (p.entering depth).steps <;> rfl
  | node (.list value) children, depth, p => by
    rw [evaluateAt, courseAt, Limits.follow_node]
    cases limits.breach? depth (p.entering depth).steps with
    | some fault => rfl
    | none =>
      simp only [Limits.follow_concludeList]
      congr 1
      cases formOf children with
      | unknown name => rfl
      | sum => exact evaluateSum_eq_follow limits children depth _
      | sequence =>
        simp only [evaluateEach_eq_follow limits children depth _ [], Limits.follow_bind]
        rcases limits.follow (courseEach children depth) _ with ⟨fault | values, p'⟩ <;> rfl

private theorem evaluateSum_eq_follow (limits : Limits) :
    ∀ (members : List Tree) (depth : Int) (p : Progress),
      evaluateSum limits members depth p = limits.follow (courseSum members depth) p
  | [], _, _ | [_], _, _ | [_, _], _, _ => rfl
  | _ :: left :: right :: _, depth, p => by
    rw [evaluateSum, courseSum, Limits.follow_bind, evaluateAt_eq_follow limits left]
    rcases limits.follow (left.courseAt (depth + 1)) p with ⟨fault | value, p'⟩
    · rfl
    · simp only [Limits.follow_bind, evaluateAt_eq_follow limits right]
      rcases limits.follow (right.courseAt (depth + 1)) p' with ⟨fault | value', p''⟩ <;> rfl

/-- The values collected before come first; the course knows nothing of them. -/
private theorem evaluateEach_eq_follow (limits : Limits) :
    ∀ (trees : List Tree) (depth : Int) (p : Progress) (values : List Tree),
      evaluateEach limits trees depth p values =
        match limits.follow (courseEach trees depth) p with
        | (.ok later, p) => (.ok (values.reverse ++ later), p)
        | (.error fault, p) => (.error fault, p)
  | [], depth, p, values => by simp [evaluateEach, courseEach]
  | tree :: trees, depth, p, values => by
    rw [evaluateEach, courseEach, Limits.follow_bind, evaluateAt_eq_follow limits tree]
    rcases limits.follow (tree.courseAt (depth + 1)) p with ⟨fault | value, p'⟩
    · rfl
    · simp only [Limits.follow_bind, evaluateEach_eq_follow limits trees]
      rcases limits.follow (courseEach trees depth) p' with ⟨fault | later, p''⟩
      · rfl
      · by_cases h : value.isNull = true <;> simp [h]

end

end Tree

namespace Evaluator

/-- The forms of a program are evaluated along its course. The count of steps starts again, so
what it was before does not matter. -/
private theorem runForms_eq_follow (limits : Limits) (value : Option String)
    (forms : List Tree) (steps : Nat) :
    runForms limits forms =
      limits.follow (Entry.program.course (.node (.list value) forms)) ⟨steps, []⟩ := by
  rw [runForms, Entry.course, Limits.follow_node]
  simp only [Progress.entering, if_true]
  cases limits.breach? 0 0 with
  | some fault => rfl
  | none =>
    simp only [Tree.evaluateEach_eq_follow, Limits.follow_bind, Progress.step, Nat.zero_add]
    rcases limits.follow (Tree.courseEach forms 0) ⟨1, []⟩ with ⟨fault | values, p⟩ <;> rfl

/-- An evaluator follows the course of what is handed to it. -/
theorem enter_eq_follow (evaluator : Evaluator) (entry : Entry) (tree : Tree) :
    evaluator.enter entry tree =
      .ofOutcome (evaluator.limits.follow (entry.course tree) ⟨evaluator.steps, []⟩) := by
  have asForm (tree : Tree) : evaluator.evaluate tree 0 =
      .ofOutcome (evaluator.limits.follow (tree.courseAt 0) ⟨evaluator.steps, []⟩) := by
    rw [evaluate, Tree.evaluateAt_eq_follow]
  cases entry with
  | form => exact asForm tree
  | program =>
    obtain ⟨label, forms⟩ := tree
    cases label with
    | list value =>
      rw [enter, runProgram, runForms_eq_follow evaluator.limits value forms evaluator.steps]
    | null value => exact asForm _
    | number value => exact asForm _
    | word text => exact asForm _
    | unknown kind value => exact asForm _

end Evaluator

end PlusLisp
