import PlusLisp.Proofs.Audit.Soundness
import PlusLisp.Proofs.Evaluation.Depths
import PlusLisp.Proofs.Evaluation.Keeps
import PlusLisp.Proofs.Evaluation.Values

/-!
The shape of results. One property that evaluation keeps is to consist of numbers in range and of
lists (`Tree.IsData`, `Tree.keeps_isResult`).

To evaluate such a value again visits each of its nodes once, on its own level
(`Tree.IsData.length_depths`, `Tree.IsData.reaches`). It takes some of the steps that it took to
come to the value, so that a result is no larger than the count of steps and no deeper than the
tree it comes from.

Main statement: `Evaluator.results_have_shape`.
-/

namespace PlusLisp

namespace Tree

/-! ### Plain trees and data -/

/-- Holds of the trees that are made of nothing but trees for no value, childless words, childless
numbers in range, and lists without value. -/
inductive IsPlain : Tree → Prop
  | null {text : Option String} : IsPlain (node (.null text) [])
  | number {n : Int} : Signed64.InRange n → IsPlain (number n)
  | word {text : Option String} : IsPlain (word text)
  | list {members : List Tree} : (∀ member ∈ members, member.IsPlain) → IsPlain (list members)

/-- Holds of the trees that are made of nothing but childless numbers in range and lists without
value. -/
inductive IsData : Tree → Prop
  | number {n : Int} : Signed64.InRange n → IsData (number n)
  | list {members : List Tree} : (∀ member ∈ members, member.IsData) → IsData (list members)

/-- Holds of the results of plain trees: data, or a childless tree for no value. -/
def IsResult (value : Tree) : Prop := (∃ text, value = node (.null text) []) ∨ value.IsData

variable {tree leaf value left right : Tree} {members : List Tree} {depth : Int}

/-- What stands for itself in a plain tree is a result. -/
theorem IsPlain.isResult_of_mem (h : tree.IsPlain) (hmem : leaf ∈ tree.subtrees)
    (hown : leaf.IsOwnValue) : leaf.IsResult := by
  induction h with
  | @null text =>
    rw [subtrees_eq] at hmem
    obtain rfl : leaf = node (.null text) [] := by simpa [children] using hmem
    exact .inl ⟨text, rfl⟩
  | @number n hrange =>
    rw [subtrees_eq] at hmem
    obtain rfl : leaf = Tree.number n := by simpa [children, Tree.number] using hmem
    exact .inr (.number hrange)
  | @word text =>
    rw [subtrees_eq] at hmem
    obtain rfl : leaf = Tree.word text := by simpa [children, Tree.word] using hmem
    exact hown.elim
  | list _ ih =>
    rw [subtrees_eq, List.mem_cons, List.mem_flatMap] at hmem
    obtain rfl | ⟨member, hmember, hmem⟩ := hmem
    · exact hown.elim
    · exact ih member hmember hmem

/-- Results stay results when they are added or listed. -/
theorem keeps_isResult : Keeps IsResult where
  null := .inl ⟨none, rfl⟩
  sum left right value _ _ hsum := by
    obtain rfl | ⟨m, -, n, -, -, -, hrange, rfl⟩ := sum_eq_ok hsum
    · exact .inl ⟨none, rfl⟩
    · exact .inr (.number hrange)
  list values h := by
    refine .inr (.list fun value hmem => ?_)
    obtain ⟨hresult, hsome⟩ := h value hmem
    obtain ⟨text, rfl⟩ | hdata := hresult
    · cases hsome
    · exact hdata

/-- What a plain tree evaluates to is a result. -/
theorem IsPlain.isResult_of_courseAt (h : tree.IsPlain)
    (hvalue : (tree.courseAt depth).outcome = .ok value) : value.IsResult :=
  keeps_isResult.of_courseAt tree depth value (fun _ => h.isResult_of_mem) hvalue

/-- What a plain tree comes to that is handed in is a result. -/
theorem IsPlain.isResult_of_course (h : tree.IsPlain) {entry : Entry}
    (hvalue : (entry.course tree).outcome = .ok value) : value.IsResult :=
  keeps_isResult.of_course (fun _ => h.isResult_of_mem) hvalue

/-! ### The steps of data -/

namespace IsData

theorem isNull_eq_false (h : value.IsData) : value.isNull = false := by
  cases h <;> rfl

theorem isValue (h : value.IsData) : value.IsValue := by
  induction h with
  | number => exact .number
  | list hmembers ih => exact .list ih fun member hmem => (hmembers member hmem).isNull_eq_false

theorem depths_cons (h : value.IsData) (trees : List Tree) (depth : Int) :
    (courseEach (value :: trees) depth).depths =
      (value.courseAt (depth + 1)).depths ++ (courseEach trees depth).depths :=
  depths_courseEach_cons (h.isValue.outcome_courseAt (depth + 1))

theorem depths_list (h : ∀ member ∈ members, member.IsData) (depth : Int) :
    ((Tree.list members).courseAt depth).depths = depth :: (courseEach members depth).depths :=
  depths_courseAt_list (formOf_values fun member hmem => (h member hmem).isValue) none depth

/-- To evaluate data takes one step for each node. -/
theorem length_depths (h : value.IsData) (depth : Int) :
    (value.courseAt depth).depths.length = value.size := by
  induction h generalizing depth with
  | number => rfl
  | @list members hmembers ih =>
    have heach : (courseEach members depth).depths.length = sizeEach members := by
      induction members with
      | nil => rfl
      | cons member members ihMembers =>
        rw [List.forall_mem_cons] at hmembers ih
        rw [hmembers.1.depths_cons, List.length_append, ih.1, ihMembers hmembers.2 ih.2, sizeEach]
    rw [depths_list hmembers, List.length_cons, heach, Tree.list, size]

/-- To evaluate data goes down to the last level. -/
theorem reaches (h : value.IsData) (depth : Int) :
    depth + value.height - 1 ∈ (value.courseAt depth).depths := by
  induction h generalizing depth with
  | number =>
    refine List.mem_singleton.mpr ?_
    simp [Tree.number, height, heightEach]
  | @list members hmembers ih =>
    have heach : members = [] ∨ depth + heightEach members ∈ (courseEach members depth).depths := by
      induction members with
      | nil => exact .inl rfl
      | cons member members ihMembers =>
        rw [List.forall_mem_cons] at hmembers ih
        have hfirst : depth + member.height ∈ (member.courseAt (depth + 1)).depths := by
          have hlast := ih.1 (depth + 1)
          rwa [show depth + 1 + (member.height : Int) - 1 = depth + member.height by omega] at hlast
        refine .inr ?_
        rw [hmembers.1.depths_cons, heightEach, List.mem_append]
        rcases Nat.le_total (heightEach members) member.height with hle | hle
        · rw [Nat.max_eq_left hle]
          exact .inl hfirst
        · rw [Nat.max_eq_right hle]
          obtain rfl | hrest := ihMembers hmembers.2 ih.2
          · rw [heightEach, Nat.le_zero, height_eq] at hle
            omega
          · exact .inr hrest
    rw [depths_list hmembers, List.mem_cons, Tree.list, height]
    obtain rfl | hdeep := heach
    · refine .inl ?_
      simp [heightEach]
    · refine .inr ?_
      rwa [show depth + ((heightEach members + 1 : Nat) : Int) - 1 = depth + heightEach members by
        omega]

end IsData

/-- When limits let a tree be evaluated, it comes to what its course comes to. -/
theorem outcome_courseAt_of_evaluate {evaluator : Evaluator}
    (h : (evaluator.evaluate tree depth).outcome = .ok value) :
    (tree.courseAt depth).outcome = .ok value := by
  rw [Evaluator.evaluate, evaluateAt_eq_follow, Evaluation.ofOutcome, Limits.outcome_follow] at h
  cases hstop : (evaluator.limits.watch (tree.courseAt depth).depths evaluator.steps).1 with
  | none =>
    rw [hstop] at h
    exact h
  | some fault =>
    rw [hstop] at h
    cases h

namespace IsResult

/-- To evaluate a result again takes one step for each of its nodes. -/
theorem length_depths (h : value.IsResult) (depth : Int) :
    (value.courseAt depth).depths.length = value.size := by
  obtain ⟨text, rfl⟩ | hdata := h
  · rfl
  · exact hdata.length_depths depth

theorem reaches (h : value.IsResult) (depth : Int) :
    depth + value.height - 1 ∈ (value.courseAt depth).depths := by
  obtain ⟨text, rfl⟩ | hdata := h
  · refine List.mem_singleton.mpr ?_
    simp [height, heightEach]
  · exact hdata.reaches depth

/-- A result is no higher than the tree whose course it comes of. -/
theorem height_le (h : value.IsResult) {course : Course Tree} (hcome : ComesOf course depth value)
    {count height : Nat} (hwithin : Within (depth + height) count course.depths) :
    value.height ≤ height := by
  have hdeep := hwithin.shallow _ (hcome.again.subset (h.reaches depth))
  omega

/-- A result has no more nodes than its course. -/
theorem size_le (h : value.IsResult) {course : Course Tree} (hcome : ComesOf course depth value) :
    value.size ≤ course.steps := by
  rw [← h.length_depths depth]
  exact hcome.again.length_le

end IsResult

end Tree

namespace Evaluator

/-- **The shape of results.** Whatever limits it is under and whatever it did before, an evaluator
makes of a plain tree, at any depth, a result that is no deeper than the tree: data, or a tree for
no value. Of a program it makes a list of data. From depth 0 it takes at least one step for each
node of the result. -/
theorem results_have_shape {tree : Tree} (h : tree.IsPlain) (evaluator : Evaluator) :
    (∀ depth value, (evaluator.evaluate tree depth).outcome = .ok value →
      value.IsResult ∧ value.depth ≤ tree.depth) ∧
    (∀ forms value, tree = .list forms → (evaluator.runProgram tree).outcome = .ok value →
      ∃ values, value = .list values ∧ value.IsData ∧ value.depth ≤ tree.depth) ∧
    ∀ entry value, (evaluator.enter entry tree).outcome = .ok value →
      value.visits.length ≤ (evaluator.enter entry tree).steps := by
  simp only [Tree.depth_eq_height, Tree.length_visits]
  refine ⟨?_, ?_, ?_⟩
  · intro depth value hvalue
    have hcourse := Tree.outcome_courseAt_of_evaluate hvalue
    have hresult := h.isResult_of_courseAt hcourse
    exact ⟨hresult, hresult.height_le (tree.comesOf_courseAt depth value hcourse)
      (tree.within_courseAt depth)⟩
  · rintro forms value rfl hvalue
    obtain ⟨hcourse, -⟩ := (@enter_eq_ok_iff evaluator .program _ _).mp hvalue
    have hresult := h.isResult_of_course hcourse
    obtain ⟨values, rfl⟩ := Entry.exists_list_of_program hcourse
    have hsome : ¬∃ text, Tree.list values = .node (.null text) [] := by
      rintro ⟨text, heq⟩
      cases heq
    have hwithin := Entry.program.within_course (.list forms)
    rw [← Int.zero_add ((Tree.list forms).height : Int)] at hwithin
    exact ⟨values, rfl, hresult.resolve_left hsome,
      hresult.height_le (Entry.comesOf_course hcourse) hwithin⟩
  · intro entry value hvalue
    obtain ⟨hcourse, fits⟩ := enter_eq_ok_iff.mp hvalue
    rw [steps_enter evaluator fits]
    exact (h.isResult_of_course hcourse).size_le (Entry.comesOf_course hcourse)

/-- The program `(+ 1 -2 Null) Null ((x 5) (3))` comes to `-1 ((3))` in as many steps as it is
allowed, and to the same as a form at depth 7. -/
theorem results_have_shape_nested :
    let tree : Tree := .list [.list [.word (some "+"), .number 1, .number (-2), .null], .null,
      .list [.list [.word (some "x"), .number 5], .list [.number 3]]]
    let value : Tree := .list [.number (-1), .list [.list [.number 3]]]
    let evaluator : Evaluator := ⟨⟨some 10, some 9⟩, 0⟩
    tree.IsPlain ∧ (evaluator.runProgram tree).outcome = .ok value ∧
      (evaluator.evaluate tree 7).outcome = .ok value ∧ value.IsResult ∧ value.IsData ∧
      value.depth ≤ tree.depth ∧ value.visits.length ≤ (evaluator.runProgram tree).steps := by
  intro tree value evaluator
  have hplain : tree.IsPlain := by
    refine .list ?_
    simp only [List.forall_mem_cons]
    refine ⟨.list ?_, .null, .list ?_, nofun⟩
    · simp only [List.forall_mem_cons]
      exact ⟨.word, .number (by decide), .number (by decide), .null, nofun⟩
    · simp only [List.forall_mem_cons]
      refine ⟨.list ?_, .list (List.forall_mem_singleton.mpr (.number (by decide))), nofun⟩
      simp only [List.forall_mem_cons]
      exact ⟨.word, .number (by decide), nofun⟩
  obtain ⟨hform, hprogram, hsteps⟩ := results_have_shape hplain evaluator
  have hrun : (evaluator.runProgram tree).outcome = .ok value := by rfl
  have hevaluate : (evaluator.evaluate tree 7).outcome = .ok value := by rfl
  obtain ⟨_, -, hdata, -⟩ := hprogram _ value rfl hrun
  obtain ⟨hresult, hdepth⟩ := hform 7 value hevaluate
  exact ⟨hplain, hrun, hevaluate, hresult, hdata, hdepth, hsteps .program value hrun⟩

end Evaluator

end PlusLisp
