import PlusLisp.Proofs.Evaluation.Depths
import PlusLisp.Proofs.Evaluation.Transparency

/-!
Values: the trees that evaluations come to. No value is a word, so that a list of values never
names an operation and is evaluated member by member. It follows that a value is its own value.

Evaluating a value again takes some of the steps that it took to come to it, at the same depths
(`ComesOf.again`), so that no limits stop the second evaluation that let the first one pass.

Main statement: `Evaluator.enter_idempotent`.
-/

namespace PlusLisp

/-! ### Values -/

/-- Holds of the trees that evaluations come to: numbers, trees that stand for no value, and lists
of values in which nothing stands for no value. -/
inductive Tree.IsValue : Tree → Prop
  | null {value : Option String} {children : List Tree} : IsValue (node (.null value) children)
  | number {n : Int} {children : List Tree} : IsValue (node (.number n) children)
  | list {values : List Tree} : (∀ value ∈ values, value.IsValue) →
      (∀ value ∈ values, value.isNull = false) → IsValue (list values)

namespace Tree

variable {tree value : Tree} {trees values : List Tree} {depth : Int}

theorem IsValue.of_sum {left right : Tree} (h : left.sum right = .ok value) : value.IsValue := by
  obtain rfl | ⟨m, -, n, -, -, -, -, rfl⟩ := sum_eq_ok h
  · exact .null
  · exact .number

theorem IsValue.wordText?_eq_none (h : value.IsValue) : value.wordText? = none := by
  cases h <;> rfl

/-- Values name no operation. -/
theorem formOf_values (h : ∀ value ∈ values, value.IsValue) : formOf values = .sequence := by
  cases values with
  | nil => rfl
  | cons head values => simp only [formOf, (h head List.mem_cons_self).wordText?_eq_none]

/-! ### The courses of values -/

theorem outcome_courseEach_values
    (hvalues : ∀ value ∈ values, (value.courseAt (depth + 1)).outcome = .ok value)
    (hsome : ∀ value ∈ values, value.isNull = false) :
    (courseEach values depth).outcome = .ok values := by
  induction values with
  | nil => rfl
  | cons value values ih =>
    rw [List.forall_mem_cons] at hvalues hsome
    rw [courseEach, Course.outcome_bind_eq_ok]
    refine ⟨value, hvalues.1, Course.outcome_bind_eq_ok.mpr ⟨values, ih hvalues.2 hsome.2, ?_⟩⟩
    rw [hsome.1]
    rfl

/-- A value is its own value. -/
theorem IsValue.outcome_courseAt (h : value.IsValue) (depth : Int) :
    (value.courseAt depth).outcome = .ok value := by
  induction h generalizing depth with
  | null | number => rfl
  | @list values hvalues hsome ih =>
    have heach : (courseEach values depth).outcome = .ok values :=
      outcome_courseEach_values (fun value hmem => ih value hmem (depth + 1)) hsome
    rw [Tree.list, courseAt, Course.outcome_note, Course.outcome_concludeList,
      formOf_values hvalues]
    exact Course.outcome_bind_eq_ok.mpr ⟨values, heach, rfl⟩

theorem depths_courseAt_list (h : formOf trees = .sequence) (text : Option String) (depth : Int) :
    ((node (.list text) trees).courseAt depth).depths =
      depth :: (courseEach trees depth).depths := by
  rw [courseAt, Course.depths_node, Course.depths_concludeList, h]
  exact congrArg _ (Course.depths_bind_pure _ _)

theorem depths_courseEach_cons (h : (tree.courseAt (depth + 1)).outcome = .ok value) :
    (courseEach (tree :: trees) depth).depths =
      (tree.courseAt (depth + 1)).depths ++ (courseEach trees depth).depths := by
  rw [courseEach, Course.depths_bind, h]
  exact congrArg _ (Course.depths_bind_pure _ _)

/-- A list that names no operation takes the same course as a program and as a form. -/
theorem resembles_form (h : formOf trees = .sequence) (text : Option String) :
    (Entry.program.course (node (.list text) trees)).Resembles id
      ((node (.list text) trees).courseAt 0) where
  outcome := by
    rw [Entry.course, courseAt, Course.outcome_note, Course.outcome_note,
      Course.outcome_concludeList, h, Course.outcome_bind, Course.outcome_bind]
    rfl
  depths := by rw [List.map_id, Entry.depths_program, depths_courseAt_list h]

/-- A program that is a value is evaluated like any other tree. -/
theorem IsValue.course_eq (h : value.IsValue) (entry : Entry) :
    (entry.course value).outcome = .ok value ∧
      (entry.course value).depths = (value.courseAt 0).depths := by
  cases entry with
  | form => exact ⟨h.outcome_courseAt 0, rfl⟩
  | program =>
    have hform := h.outcome_courseAt 0
    cases h with
    | null | number => exact ⟨rfl, rfl⟩
    | list hvalues hsome =>
      have hsame := resembles_form (formOf_values hvalues) none
      exact ⟨hsame.outcome.trans hform, hsame.depths.trans (List.map_id _)⟩

end Tree

/-! ### What courses come to -/

/-- What comes of a course at a depth: a value, and to evaluate it again takes some of the steps of
the course. -/
structure ComesOf (course : Course Tree) (depth : Int) (value : Tree) : Prop where
  isValue : value.IsValue
  again : (value.courseAt depth).depths.Sublist course.depths

/-- What comes of the members of a list at a depth. -/
structure ComeOf (course : Course (List Tree)) (depth : Int) (values : List Tree) : Prop where
  areValues : ∀ value ∈ values, value.IsValue
  areSome : ∀ value ∈ values, value.isNull = false
  again : (Tree.courseEach values depth).depths.Sublist course.depths

theorem ComeOf.nil (course : Course (List Tree)) (depth : Int) : ComeOf course depth [] where
  areValues := List.forall_mem_nil _
  areSome := List.forall_mem_nil _
  again := List.nil_sublist _

namespace Tree

mutual

/-- The course of a tree that does not fail comes to a value. -/
theorem comesOf_courseAt : ∀ (tree : Tree) (depth : Int) (value : Tree),
    (tree.courseAt depth).outcome = .ok value → ComesOf (tree.courseAt depth) depth value
  | node (.null _) _, depth, value, h => by
    cases h
    exact ⟨.null, .refl _⟩
  | node (.number _) _, depth, value, h => by
    cases h
    exact ⟨.number, .refl _⟩
  | node (.word _) _, depth, value, h => by
    cases h
    exact ⟨.null, .refl _⟩
  | node (.unknown _ _) _, depth, value, h => by cases h
  | node (.list text) members, depth, value, h => by
    rw [courseAt, Course.outcome_note, Course.outcome_concludeList] at h
    rw [courseAt]
    cases hform : formOf members with
    | unknown name =>
      rw [hform] at h
      cases h
      refine ⟨.null, ?_⟩
      rw [Course.depths_node]
      exact List.singleton_sublist.mpr List.mem_cons_self
    | sum =>
      rw [hform] at h
      exact comesOf_courseSum members depth value h
    | sequence =>
      rw [hform] at h
      obtain ⟨values, hvalues, hlist⟩ := Course.outcome_bind_eq_ok.mp h
      cases hlist
      have hcome := comeOf_courseEach members depth values hvalues
      refine ⟨.list hcome.areValues hcome.areSome, ?_⟩
      rw [list, depths_courseAt_list (formOf_values hcome.areValues), Course.depths_node,
        Course.depths_concludeList, Course.depths_bind_pure]
      exact hcome.again.cons_cons depth

private theorem comesOf_courseSum : ∀ (members : List Tree) (depth : Int) (value : Tree),
    (courseSum members depth).outcome = .ok value →
    ComesOf (do Course.note (.node depth); (courseSum members depth).concludeList depth) depth value
  | [], _, _, h | [_], _, _, h | [_, _], _, _, h => by cases h
  | _ :: _ :: _ :: _, depth, value, h => by
    rw [courseSum, Course.outcome_bind_eq_ok] at h
    obtain ⟨left, -, h⟩ := h
    obtain ⟨right, -, h⟩ := Course.outcome_bind_eq_ok.mp h
    have hroot : (value.courseAt depth).depths = [depth] := by
      obtain rfl | ⟨m, -, n, -, -, -, -, rfl⟩ := sum_eq_ok h <;> rfl
    refine ⟨.of_sum h, ?_⟩
    rw [hroot, Course.depths_node]
    exact List.singleton_sublist.mpr List.mem_cons_self

theorem comeOf_courseEach : ∀ (trees : List Tree) (depth : Int) (values : List Tree),
    (courseEach trees depth).outcome = .ok values → ComeOf (courseEach trees depth) depth values
  | [], depth, values, h => by
    cases h
    exact .nil _ depth
  | tree :: trees, depth, values, h => by
    rw [courseEach, Course.outcome_bind_eq_ok] at h
    obtain ⟨value, hvalue, h⟩ := h
    obtain ⟨later, hlater, h⟩ := Course.outcome_bind_eq_ok.mp h
    have hfirst := comesOf_courseAt tree (depth + 1) value hvalue
    have hrest := comeOf_courseEach trees depth later hlater
    cases h
    cases hnull : value.isNull with
    | true =>
      refine ⟨hrest.areValues, hrest.areSome, ?_⟩
      rw [depths_courseEach_cons hvalue]
      exact hrest.again.trans (List.sublist_append_right _ _)
    | false =>
      refine ⟨List.forall_mem_cons.mpr ⟨hfirst.isValue, hrest.areValues⟩,
        List.forall_mem_cons.mpr ⟨hnull, hrest.areSome⟩, ?_⟩
      have hvalue' := hfirst.isValue.outcome_courseAt (depth + 1)
      simp only [Bool.false_eq_true, if_false]
      rw [depths_courseEach_cons hvalue, depths_courseEach_cons hvalue']
      exact hfirst.again.append hrest.again

end

end Tree

/-- The course of a tree that is handed in comes to a value. -/
theorem Entry.comesOf_course {entry : Entry} {tree value : Tree}
    (h : (entry.course tree).outcome = .ok value) : ComesOf (entry.course tree) 0 value := by
  revert h
  refine Entry.course_induction (motive := fun _ course =>
    course.outcome = .ok value → ComesOf course 0 value) ?_ ?_ entry tree
  · intro tree
    exact tree.comesOf_courseAt 0 value
  · intro text forms h
    rw [Entry.course, Course.outcome_note] at h
    obtain ⟨values, hvalues, hlist⟩ := Course.outcome_bind_eq_ok.mp h
    cases hlist
    have hcome := Tree.comeOf_courseEach forms 0 values hvalues
    refine ⟨.list hcome.areValues hcome.areSome, ?_⟩
    rw [Tree.list, Tree.depths_courseAt_list (Tree.formOf_values hcome.areValues), depths_program]
    exact hcome.again.cons_cons 0

/-! ### Evaluating again -/

/-- Limits that allow some nodes allow any of them alone. -/
theorem Limits.Allows.sublist {limits : Limits} {steps : Nat} {depths others : List Int}
    (h : limits.Allows steps depths) (hsub : others.Sublist depths) :
    limits.Allows steps others := by
  rw [allows_iff] at h ⊢
  obtain ⟨shallow, few⟩ := h
  refine ⟨fun d isLimit depth hmem => shallow d isLimit depth (hsub.subset hmem), ?_⟩
  intro hsome m isLimit
  have hlength := hsub.length_le
  have hfew := few (fun hnone => hsome (List.sublist_nil.mp (hnone ▸ hsub))) m isLimit
  omega

/-- An evaluation comes to a value exactly when its course does and its limits allow all steps of
it, and then these are its steps. -/
theorem Evaluator.enter_eq_ok_iff {evaluator : Evaluator} {entry : Entry} {tree value : Tree} :
    (evaluator.enter entry tree).outcome = .ok value ↔
      (entry.course tree).outcome = .ok value ∧
        evaluator.limits.Allows 0 (entry.course tree).depths := by
  have starts := entry.startsAt_course tree
  rw [enter_eq_follow]
  by_cases fits : evaluator.limits.Allows 0 (entry.course tree).depths
  · obtain ⟨log, hfollow⟩ := starts.follow_of_allows (p := ⟨evaluator.steps, []⟩) fits
    rw [hfollow]
    exact (and_iff_left fits).symm
  · obtain ⟨fault, spent, log, hfollow, -⟩ :=
      starts.follow_of_not_allows (p := ⟨evaluator.steps, []⟩) fits
    rw [hfollow]
    refine ⟨fun h => ?_, fun h => absurd h.2 fits⟩
    cases h

theorem Evaluator.steps_enter (evaluator : Evaluator) {entry : Entry} {tree : Tree}
    (fits : evaluator.limits.Allows 0 (entry.course tree).depths) :
    (evaluator.enter entry tree).steps = (entry.course tree).steps := by
  obtain ⟨log, hfollow⟩ :=
    (entry.startsAt_course tree).follow_of_allows (p := ⟨evaluator.steps, []⟩) fits
  rw [enter_eq_follow, hfollow]
  rfl

/-- **Evaluation is idempotent, also under limits.** What a tree evaluates to, or a program comes
to, is evaluated under the same limits to itself, in no more steps, whatever the evaluators did
before. -/
theorem Evaluator.enter_idempotent {limits : Limits} {steps : Nat} {entry : Entry}
    {tree value : Tree} (h : ((Evaluator.mk limits steps).enter entry tree).outcome = .ok value)
    (steps' : Nat) :
    ((Evaluator.mk limits steps').enter entry value).outcome = .ok value ∧
      ((Evaluator.mk limits steps').enter entry value).steps ≤
        ((Evaluator.mk limits steps).enter entry tree).steps := by
  obtain ⟨hcourse, fits⟩ := enter_eq_ok_iff.mp h
  obtain ⟨hvalue, again⟩ := Entry.comesOf_course hcourse
  obtain ⟨houtcome, hdepths⟩ := hvalue.course_eq entry
  rw [← hdepths] at again
  have fits' : limits.Allows 0 (entry.course value).depths := fits.sublist again
  refine ⟨enter_eq_ok_iff.mpr ⟨houtcome, fits'⟩, ?_⟩
  rw [steps_enter ⟨limits, steps'⟩ fits', steps_enter ⟨limits, steps⟩ fits]
  exact again.length_le

/-- The program `(+ 1 2) ((x) (3)) +` takes nine steps, down to depth 3, and comes to `3 ((3))`. The
same limits let that come to itself. -/
theorem Evaluator.enter_idempotent_within_limits :
    let limits : Limits := ⟨some 3, some 9⟩
    let tree : Tree := .list [.list [.word (some "+"), .number 1, .number 2],
      .list [.list [.word (some "x")], .list [.number 3]], .word (some "+")]
    let value : Tree := .list [.number 3, .list [.list [.number 3]]]
    ((Evaluator.mk limits 5).enter .program tree).outcome = .ok value ∧
      ((Evaluator.mk limits 7).enter .program value).outcome = .ok value ∧
      ((Evaluator.mk limits 7).enter .program value).steps ≤
        ((Evaluator.mk limits 5).enter .program tree).steps := by
  intro limits tree value
  have h : ((Evaluator.mk limits 5).enter .program tree).outcome = .ok value := by rfl
  exact ⟨h, enter_idempotent h 7⟩

end PlusLisp
