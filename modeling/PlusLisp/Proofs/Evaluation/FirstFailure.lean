import Mathlib.Data.Set.Card
import PlusLisp.Proofs.Evaluation.Causes
import PlusLisp.Proofs.Evaluation.Live
import PlusLisp.Proofs.Evaluation.Transparency

/-!
Which programs fail, and what a run costs. Both can be read off the live nodes of a tree: each is a
step of an evaluation, and an evaluation stops at the first of them that fails.

The courses of the parts of a tree go through the regions of these parts one after the other
(`Settles.bind`), so that the course of a tree goes through all of it (`Entry.settles_course`).

Main statement: `Evaluator.enter_live`.
-/

namespace PlusLisp

/-! ### Courses through regions -/

/-- What a course through a region comes to: when it ends with a value it takes a step for each
live node and none of them fails; otherwise it ends with the first fault. -/
structure Settles {α : Type} (course : Course α) (r : Region) : Prop where
  steps : ∀ value, course.outcome = .ok value → (course.steps : ℕ∞) = r.paths.encard
  sound : ∀ value, course.outcome = .ok value → r.faults = ∅
  first : ∀ fault, course.outcome = .error fault →
    ∃ time, (time, fault) ∈ r.faults ∧ ∀ failure ∈ r.faults, time ≤ failure.1

namespace Settles

variable {α β : Type} {course : Course α} {next : α → Course β} {r s : Region} {fault : Fault}

/-- One course after the other goes through one region after the other. -/
theorem bind {index : Nat} (h : Settles course r) (huntil : r.Until index)
    (hnext : ∀ value, course.outcome = .ok value → Settles (next value) s)
    (hfrom : s.From index) : Settles (course >>= next) (r ∪ s) where
  steps result hresult := by
    obtain ⟨value, hvalue, hlater⟩ := Course.outcome_bind_eq_ok.mp hresult
    have hdisjoint : Disjoint r.paths s.paths := by
      rw [Set.disjoint_left]
      intro path hr hs
      exact absurd (huntil.paths path hr) (not_lt.mpr (hfrom.paths path hs))
    have hsteps : (course >>= next).steps = course.steps + (next value).steps := by
      rw [Course.steps, Course.depths_bind, hvalue, List.length_append]
      rfl
    rw [hsteps, Nat.cast_add, h.steps value hvalue, (hnext value hvalue).steps result hlater]
    exact (Set.encard_union_eq hdisjoint).symm
  sound result hresult := by
    obtain ⟨value, hvalue, hlater⟩ := Course.outcome_bind_eq_ok.mp hresult
    exact Set.union_empty_iff.mpr ⟨h.sound value hvalue, (hnext value hvalue).sound result hlater⟩
  first fault hfault := by
    rcases Course.outcome_bind_eq_error.mp hfault with hfault | ⟨value, hvalue, hfault⟩
    · obtain ⟨time, hmem, hfirst⟩ := h.first fault hfault
      refine ⟨time, .inl hmem, ?_⟩
      rintro failure (hr | hs)
      · exact hfirst failure hr
      · exact ((huntil.faults _ hmem).trans_le (hfrom.faults failure hs)).le
    · obtain ⟨time, hmem, hfirst⟩ := (hnext value hvalue).first fault hfault
      refine ⟨time, .inr hmem, ?_⟩
      rintro failure (hr | hs)
      · rw [h.sound value hvalue] at hr
        exact hr.elim
      · exact hfirst failure hs

/-- What comes after all nodes and cannot fail settles nothing anew. -/
theorem afterwards (h : Settles course r)
    (hvalue : ∀ value, ∃ result, (next value).outcome = .ok result)
    (hdepths : ∀ value, (next value).depths = []) : Settles (course >>= next) r := by
  have hsteps : (course >>= next).steps = course.steps := by
    rw [Course.steps, Course.depths_bind]
    cases course.outcome with
    | ok value => exact congrArg List.length (by simp [hdepths value])
    | error fault => exact congrArg List.length (List.append_nil _)
  constructor
  case steps =>
    intro result hresult
    obtain ⟨value, hvalue, -⟩ := Course.outcome_bind_eq_ok.mp hresult
    rw [hsteps, h.steps value hvalue]
  case sound =>
    intro result hresult
    obtain ⟨value, hvalue, -⟩ := Course.outcome_bind_eq_ok.mp hresult
    exact h.sound value hvalue
  case first =>
    intro fault hfault
    rcases Course.outcome_bind_eq_error.mp hfault with hfault | ⟨value, -, hfault⟩
    · exact h.first fault hfault
    · obtain ⟨result, hresult⟩ := hvalue value
      cases hresult.symm.trans hfault

theorem map (h : Settles course r) (result : α → β) :
    Settles (do let value ← course; return result value) r :=
  h.afterwards (fun value => ⟨result value, rfl⟩) (fun _ => rfl)

theorem concludeList {course : Course Tree} (h : Settles course r) (depth : Int) :
    Settles (course.concludeList depth) r := by
  refine h.afterwards (fun value => ⟨value, ?_⟩) (fun value => ?_)
  · split <;> rfl
  · split <;> rfl

theorem node (depth : Int) : Settles (Course.note (.node depth)) .root where
  steps _ _ := by simp [Course.steps, Course.depths, Course.note, Moment.depth?, Region.root]
  sound _ _ := rfl
  first fault hfault := by cases hfault

theorem pure (value : α) : Settles (Pure.pure value : Course α) ∅ where
  steps _ _ := Set.encard_empty.symm
  sound _ _ := rfl
  first fault hfault := by cases hfault

/-- A failure of the root when it is entered comes before all others. -/
theorem of_entering (hfault : course.outcome = .error fault) (hmem : ([], fault) ∈ r.faults) :
    Settles course r where
  steps value hvalue := by cases hvalue.symm.trans hfault
  sound value hvalue := by cases hvalue.symm.trans hfault
  first fault' hfault' := by
    cases hfault'.symm.trans hfault
    exact ⟨[], hmem, fun failure _ => nil_le_word failure.1⟩

theorem below (h : Settles course r) (index : Nat) : Settles course (r.below index) where
  steps value hvalue := by
    rw [h.steps value hvalue]
    exact (List.cons_injective.encard_image _).symm
  sound value hvalue := by
    refine Set.eq_empty_of_forall_notMem ?_
    rintro failure ⟨time, -, hmem⟩
    rw [h.sound value hvalue] at hmem
    exact hmem
  first fault hfault := by
    obtain ⟨time, hmem, hfirst⟩ := h.first fault hfault
    refine ⟨↑index :: time, ⟨time, rfl, hmem⟩, ?_⟩
    rintro failure ⟨time', htime, hmem'⟩
    rw [htime]
    exact List.cons_le_cons _ (hfirst _ hmem')

end Settles

/-! ### The courses of trees -/

/-- Without limits, an evaluator takes the course of a tree to its end. -/
theorem Evaluator.enter_unlimited (steps : Nat) (entry : Entry) (tree : Tree) :
    ((Evaluator.mk .unlimited steps).enter entry tree).outcome = (entry.course tree).outcome ∧
      ((Evaluator.mk .unlimited steps).enter entry tree).steps = (entry.course tree).steps := by
  obtain ⟨log, hfollow⟩ := (entry.startsAt_course tree).follow_unlimited (p := ⟨steps, []⟩)
  rw [enter_eq_follow, hfollow]
  exact ⟨rfl, rfl⟩

theorem Tree.result_eq (tree : Tree) (depth : Int) :
    tree.result = (tree.courseAt depth).outcome :=
  (Evaluator.enter_unlimited 0 .form tree).1.trans (tree.outcome_courseAt 0 depth)

namespace Tree

open Region

variable {value : Option String} {head left right left' right' : Tree} {members : List Tree}

/-- A sum that has its operands fails exactly when their values cannot be added. -/
theorem fails_sum_iff {stage : Stage} {fault : Fault}
    (hform : formOf (head :: left :: right :: members) = .sum)
    (hleft : left.result = .ok left') (hright : right.result = .ok right') :
    Fails .form (node (.list value) (head :: left :: right :: members)) stage fault ↔
      stage = .leaving ∧ left'.sum right' = .error fault := by
  constructor
  · intro h
    cases h with
    | missingOperands _ hshort =>
      simp only [List.length_cons] at hshort
      omega
    | integerOutOfRange _ hleft' hright' hrange =>
      cases hleft.symm.trans hleft'
      cases hright.symm.trans hright'
      refine ⟨rfl, ?_⟩
      rw [sum, Signed64.check, if_neg hrange]
      rfl
  · rintro ⟨rfl, hsum⟩
    obtain ⟨m, children, n, children', rfl, rfl, hrange, rfl⟩ := sum_eq_error hsum
    exact .integerOutOfRange hform hleft hright hrange

theorem settles_ofExcept_sum (hform : formOf (head :: left :: right :: members) = .sum)
    (hleft : left.result = .ok left') (hright : right.result = .ok right') :
    Settles (.ofExcept (left'.sum right'))
      (ofRoot .form (node (.list value) (head :: left :: right :: members))) where
  steps _ _ := Set.encard_empty.symm
  sound result hresult := by
    refine Set.eq_empty_of_forall_notMem ?_
    rintro failure ⟨stage, hfails, -⟩
    have hsum := ((fails_sum_iff hform hleft hright).mp hfails).2
    cases hresult.symm.trans hsum
  first fault hfault := by
    refine ⟨[⊤], ⟨.leaving, (fails_sum_iff hform hleft hright).mpr ⟨rfl, hfault⟩, rfl⟩, ?_⟩
    rintro failure ⟨stage, hfails, htime⟩
    obtain ⟨rfl, -⟩ := (fails_sum_iff hform hleft hright).mp hfails
    exact htime.ge

/-- A tree that is no list is a step, or it fails at once. -/
theorem settles_of_ne_list {label : Label} (h : ∀ value, label ≠ .list value) (entry : Entry)
    (children : List Tree) (depth : Int) :
    Settles ((node label children).courseAt depth) (ofTree entry (node label children)) := by
  cases label with
  | list value => exact absurd rfl (h value)
  | unknown kind value => exact .of_entering rfl (mem_faults_of_entering .unknownTree)
  | null | number | word =>
    rw [ofTree_eq_root (fun _ _ => id) (by rintro _ _ ⟨⟩)]
    exact (Settles.node depth).map _

/-- A list that is a sequence is a step, and its members follow. -/
theorem settles_sequence {entry : Entry} {depth : Int} {course : Course Tree}
    (hform : entry.formOf members = .sequence)
    (hcourse : Settles course (ofChildren (Numbered 0 members))) :
    Settles (do Course.note (.node depth); course) (ofTree entry (node (.list value) members)) := by
  rw [ofTree_sequence hform]
  exact (Settles.node depth).bind (until_root 0) (fun _ _ => hcourse)
    (from_ofChildren fun _ _ h => h.1)

mutual

theorem settles_courseAt : ∀ (tree : Tree) (depth : Int),
    Settles (tree.courseAt depth) (ofTree .form tree)
  | node (.null _) children, depth | node (.number _) children, depth
  | node (.word _) children, depth | node (.unknown _ _) children, depth => by
    apply settles_of_ne_list
    rintro _ ⟨⟩
  | node (.list value) members, depth => by
    rw [courseAt]
    cases hform : formOf members with
    | unknown name =>
      have hunknown : Entry.form.formOf members = .unknown name := hform
      rw [ofTree_eq_root]
      · refine (Settles.node depth).afterwards (fun _ => ⟨null, ?_⟩) (fun _ => ?_)
        · rw [Course.outcome_concludeList]
          rfl
        · rw [Course.depths_concludeList]
          rfl
      · rintro index child ⟨-, h⟩
        rw [hunknown] at h
        exact h
      · intro stage fault h
        cases hunknown.symm.trans h.formOf_eq
    | sum => exact settles_courseSum members depth value hform
    | sequence =>
      have hcourse := ((settles_courseEach members depth 0).map list).concludeList depth
      exact settles_sequence hform hcourse

private theorem settles_courseSum : ∀ (members : List Tree) (depth : Int) (value : Option String),
    formOf members = .sum →
    Settles (do Course.note (.node depth); (courseSum members depth).concludeList depth)
      (ofTree .form (node (.list value) members))
  | [], _, _, hform | [_], _, _, hform | [_, _], _, _, hform => by
    refine .of_entering ?_ (mem_faults_of_entering (.missingOperands hform (by simp)))
    rw [Course.outcome_note, Course.outcome_concludeList]
    rfl
  | head :: left :: right :: members, depth, value, hform => by
    have hlate (index : Nat) :
        (ofRoot .form (node (.list value) (head :: left :: right :: members))).From index := by
      refine from_ofRoot ?_ index
      intro fault h
      exact absurd h.length_lt (by simp)
    rw [ofTree_sum hform, courseSum]
    refine (Settles.node depth).bind (until_root 0) ?_
      ((from_below (by omega) _).union ((from_below (by omega) _).union (hlate 0)))
    intro _ _
    refine Settles.concludeList ?_ depth
    refine ((settles_courseAt left (depth + 1)).below 1).bind (until_below 1 _) ?_
      ((from_below (by omega) _).union (hlate 2))
    intro left' hleft
    refine ((settles_courseAt right (depth + 1)).below 2).bind (until_below 2 _) ?_ (hlate 3)
    intro right' hright
    rw [← result_eq] at hleft hright
    exact settles_ofExcept_sum hform hleft hright

theorem settles_courseEach : ∀ (trees : List Tree) (depth : Int) (first : Nat),
    Settles (courseEach trees depth) (ofChildren (Numbered first trees))
  | [], depth, first => by
    have hnone : Numbered first [] = fun _ _ => False := by
      funext index child
      simp [Numbered]
    rw [hnone, ofChildren_false]
    exact .pure []
  | tree :: trees, depth, first => by
    rw [courseEach, numbered_cons, ofChildren_or, ofChildren_one]
    refine ((settles_courseAt tree (depth + 1)).below first).bind (until_below first _) ?_
      (from_ofChildren fun _ _ h => h.1)
    intro value _
    exact (settles_courseEach trees depth (first + 1)).map _

end

end Tree

/-! ### Evaluations without limits -/

/-- The course of a tree that is handed in goes through all of the tree. -/
theorem Entry.settles_course (entry : Entry) (tree : Tree) :
    Settles (entry.course tree) (.ofTree entry tree) := by
  cases entry with
  | form => exact tree.settles_courseAt 0
  | program =>
    obtain ⟨label, forms⟩ := tree
    cases label with
    | list value =>
      refine Tree.settles_sequence rfl ?_
      exact (Tree.settles_courseEach forms 0 0).afterwards (fun _ => ⟨_, rfl⟩) (fun _ => rfl)
    | null | number | word | unknown =>
      rw [Entry.course]
      · apply Tree.settles_of_ne_list
        rintro _ ⟨⟩
      · simp

namespace Settles

variable {entry : Entry} {tree : Tree} {course : Course Tree}

theorem not_fails (h : Settles course (.ofTree entry tree)) {value : Tree}
    (hvalue : course.outcome = .ok value) {path : List Nat} {node : Tree} {stage : Stage}
    {fault : Fault} (hlive : Live entry tree path node) :
    ¬ Fails (entry.along path) node stage fault := by
  intro hfails
  have hmem : (stage.time path, fault) ∈ (Region.ofTree entry tree).faults :=
    ⟨path, node, stage, hlive, hfails, rfl⟩
  rw [h.sound value hvalue] at hmem
  exact hmem

theorem failsFirst (h : Settles course (.ofTree entry tree)) {fault : Fault}
    (hfault : course.outcome = .error fault) : FailsFirst entry tree fault := by
  obtain ⟨time, ⟨path, node, stage, hlive, hfails, rfl⟩, hfirst⟩ := h.first fault hfault
  refine ⟨path, node, stage, hlive, hfails, ?_⟩
  intro path' node' stage' fault' hlive' hfails'
  exact hfirst (stage'.time path', fault') ⟨path', node', stage', hlive', hfails', rfl⟩

end Settles

/-- **An evaluation without limits is determined by the live nodes** of a tree. It succeeds exactly
when none of them fails, and then each is a step. Otherwise its fault is that of the first
failure. -/
theorem Evaluator.enter_live (steps : Nat) (entry : Entry) (tree : Tree) :
    ((∃ value, ((Evaluator.mk .unlimited steps).enter entry tree).outcome = .ok value) ↔
      ∀ path node stage fault, Live entry tree path node →
        ¬ Fails (entry.along path) node stage fault) ∧
    (∀ value, ((Evaluator.mk .unlimited steps).enter entry tree).outcome = .ok value →
      (((Evaluator.mk .unlimited steps).enter entry tree).steps : ℕ∞) =
        (livePaths entry tree).encard) ∧
    ∀ fault, ((Evaluator.mk .unlimited steps).enter entry tree).outcome = .error fault ↔
      FailsFirst entry tree fault := by
  obtain ⟨houtcome, hsteps⟩ := enter_unlimited steps entry tree
  have hsettles := entry.settles_course tree
  rw [houtcome, hsteps]
  refine ⟨⟨?_, ?_⟩, hsettles.steps, fun fault => ⟨hsettles.failsFirst, ?_⟩⟩
  · rintro ⟨value, hvalue⟩ path node stage fault hlive
    exact hsettles.not_fails hvalue hlive
  · intro hsound
    cases hcourse : (entry.course tree).outcome with
    | ok value => exact ⟨value, rfl⟩
    | error fault =>
      obtain ⟨path, node, stage, hlive, hfails, -⟩ := hsettles.failsFirst hcourse
      exact absurd hfails (hsound path node stage fault hlive)
  · intro hfirst
    cases hcourse : (entry.course tree).outcome with
    | ok value =>
      obtain ⟨path, node, stage, hlive, hfails, -⟩ := hfirst
      exact absurd hfails (hsettles.not_fails hcourse hlive)
    | error fault' => rw [(hsettles.failsFirst hcourse).unique hfirst]

end PlusLisp
