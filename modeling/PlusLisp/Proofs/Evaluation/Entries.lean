import PlusLisp.Proofs.Evaluation.DeadCode
import PlusLisp.Proofs.Evaluation.FirstFailure
import PlusLisp.Proofs.Evaluation.Reuse
import PlusLisp.Proofs.Evaluation.Values

/-!
The two ways to hand a list to an evaluator, as a program and as a form at depth 0. They differ
only in what becomes of a word at the head of the list, which a program does not take for an
operation.

Without such a word both ways take the same course (`Tree.resembles_form`), so that no limits tell
them apart. Any list can be kept from naming an operation by something without value in front
of its members, which is dropped after a step of its own (`Tree.courseAt_null`).

Main statement: `Evaluator.entries_agree`.
-/

namespace PlusLisp

namespace Tree

variable {forms : List Tree}

/-- Something without value in front of the members of a list leaves their values as they are. -/
theorem outcome_courseEach_null (text : Option String) (below : List Tree) (depth : Int) :
    (courseEach (node (.null text) below :: forms) depth).outcome =
      (courseEach forms depth).outcome := by
  rw [courseEach, Course.outcome_bind]
  change (courseEach forms depth >>= pure).outcome = _
  rw [Course.outcome_bind]
  cases (courseEach forms depth).outcome <;> rfl

/-- As a form, a list with something without value in front comes to what the list comes to as a
program, whatever its first member, and has one node more to evaluate. -/
theorem courseAt_null (value text : Option String) (below forms : List Tree) :
    ((node (.list value) (node (.null text) below :: forms)).courseAt 0).outcome =
        (Entry.program.course (node (.list value) forms)).outcome ∧
      ((node (.list value) (node (.null text) below :: forms)).courseAt 0).steps =
        (Entry.program.course (node (.list value) forms)).steps + 1 := by
  have hform : formOf (node (.null text) below :: forms) = .sequence := rfl
  constructor
  · rw [← (resembles_form hform value).outcome, Entry.course, Entry.course, Course.outcome_note,
      Course.outcome_note, Course.outcome_bind, Course.outcome_bind, outcome_courseEach_null]
    rfl
  · have hdepths : (courseEach (node (.null text) below :: forms) 0).depths =
        1 :: (courseEach forms 0).depths := depths_courseEach_cons rfl
    rw [Course.steps, Course.steps, depths_courseAt_list hform, Entry.depths_program, hdepths]
    rfl

end Tree

/-- No limits tell two ways to hand in a tree apart whose courses resemble each other. -/
theorem Evaluator.agrees_of_resembles {entry entry' : Entry} {tree tree' : Tree}
    (h : (entry.course tree).Resembles id (entry'.course tree')) (limits : Limits)
    (steps steps' : Nat) :
    ((Evaluator.mk limits steps).enter entry tree).Agrees
      ((Evaluator.mk limits steps').enter entry' tree') := by
  rw [enter_fresh limits steps, enter_fresh limits steps', enter_eq_follow, enter_eq_follow]
  exact h.agrees limits ⟨0, []⟩

/-- **The two ways to hand in a list agree.** A list without a word at its head has the same value,
or fails with the same fault, after the same number of steps, as a program and as a form, under
all limits. Any list does as a program what it does as a form with something without value in
front of its members, in one step less. -/
theorem Evaluator.entries_agree (limits : Limits) (steps steps' : Nat) (value : Option String)
    (forms : List Tree) :
    ((∀ head ∈ forms.head?, head.wordText? = none) →
      ((Evaluator.mk limits steps).runProgram (.node (.list value) forms)).Agrees
        ((Evaluator.mk limits steps').evaluate (.node (.list value) forms) 0)) ∧
    ∀ (text : Option String) (below : List Tree),
      let program := (Evaluator.mk .unlimited steps).runProgram (.node (.list value) forms)
      let form := (Evaluator.mk .unlimited steps').evaluate
        (.node (.list value) (.node (.null text) below :: forms)) 0
      program.outcome = form.outcome ∧ program.steps + 1 = form.steps := by
  constructor
  · intro hhead
    have hresembles : (Entry.program.course (.node (.list value) forms)).Resembles id
        (Entry.form.course (.node (.list value) forms)) :=
      Tree.resembles_form (Tree.formOf_sequence hhead) value
    exact agrees_of_resembles hresembles limits steps steps'
  · intro text below
    obtain ⟨houtcome, hsteps⟩ := Tree.courseAt_null value text below forms
    obtain ⟨hprogram, hprogram'⟩ := enter_unlimited steps .program (.node (.list value) forms)
    obtain ⟨hform, hform'⟩ := enter_unlimited steps' .form
      (.node (.list value) (.node (.null text) below :: forms))
    exact ⟨hprogram.trans (houtcome.symm.trans hform.symm),
      (congrArg (· + 1) hprogram').trans (hsteps.symm.trans hform'.symm)⟩

-- A word at the head of a program is no operation there.
example :
    let forms : List Tree :=
      [.word (some "+"), .number 1, .list [.word (some "+"), .number 2, .number 3]]
    ((Evaluator.mk .unlimited 0).runProgram (.list forms)).outcome =
        .ok (.list [.number 1, .number 5]) ∧
      ((Evaluator.mk .unlimited 0).evaluate (.list forms) 0).outcome = .ok (.number 6) :=
  ⟨rfl, rfl⟩

end PlusLisp
