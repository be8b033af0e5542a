import Mathlib.Data.List.Forall2
import PlusLisp.Proofs.Evaluation.Depths

/-!
Dead code and names do not matter.

A word has no value, so that its text matters only at the head of a list, and there only as far as
it is `+` or not. A list headed by another word is not looked into, and of a sum only the first two
operands are. Trees that differ in nothing else are alike (`Tree.Alike`), and alike trees have
courses that resemble each other (`Tree.resembles_courseAt`).

Main statement: `Evaluator.alike_indistinguishable`.
-/

namespace PlusLisp

namespace Tree

/-- Holds of two trees that differ only in what no evaluation looks at: below a node of an unknown
kind, in the words and below them, in the values of lists, and in dead code. Words at the head of
lists are both `+` or both something else. -/
inductive Alike : Tree → Tree → Prop
  | null {value : Option String} {children : List Tree} :
      Alike (node (.null value) children) (node (.null value) children)
  | number {n : Int} {children : List Tree} :
      Alike (node (.number n) children) (node (.number n) children)
  | word {text text' : Option String} {children children' : List Tree} :
      Alike (node (.word text) children) (node (.word text') children')
  | unknown {kind : String} {value value' : Option String} {children children' : List Tree} :
      Alike (node (.unknown kind value) children) (node (.unknown kind value') children')
  /-- Behind a word other than `+`, everything is dead code. -/
  | unknownOperation {value value' text text' : Option String}
      {below below' members members' : List Tree} : text ≠ some "+" → text' ≠ some "+" →
      Alike (node (.list value) (node (.word text) below :: members))
        (node (.list value') (node (.word text') below' :: members'))
  /-- Behind the operands of a sum, everything is dead code. -/
  | sum {value value' : Option String} {below below' members members' : List Tree}
      {left left' right right' : Tree} : Alike left left' → Alike right right' →
      Alike (node (.list value) (node (.word (some "+")) below :: left :: right :: members))
        (node (.list value') (node (.word (some "+")) below' :: left' :: right' :: members'))
  /-- Only the number of operands matters when there are not enough of them. -/
  | shortSum {value value' : Option String} {below below' members members' : List Tree} :
      members.length < 2 → members.length = members'.length →
      Alike (node (.list value) (node (.word (some "+")) below :: members))
        (node (.list value') (node (.word (some "+")) below' :: members'))
  | sequence {value value' : Option String} {members members' : List Tree} :
      (∀ head ∈ members.head?, head.wordText? = none) → List.Forall₂ Alike members members' →
      Alike (node (.list value) members) (node (.list value') members')

theorem Alike.wordText?_eq_none {tree tree' : Tree} (h : tree.Alike tree')
    (hword : tree.wordText? = none) : tree'.wordText? = none := by
  cases h with
  | word => cases hword
  | null | number | unknown | unknownOperation | sum | shortSum | sequence => rfl

/-! ### How lists are evaluated -/

theorem formOf_unknown {text : Option String} (h : text ≠ some "+") (below members : List Tree) :
    formOf (node (.word text) below :: members) = .unknown text :=
  if_neg h

theorem formOf_sum (below members : List Tree) :
    formOf (node (.word (some "+")) below :: members) = .sum := rfl

theorem formOf_sequence {members : List Tree}
    (h : ∀ head ∈ members.head?, head.wordText? = none) : formOf members = .sequence := by
  cases members with
  | nil => rfl
  | cons head members => simp only [formOf, h head rfl]

theorem courseSum_short (head : Tree) {members : List Tree} (h : members.length < 2)
    (depth : Int) :
    courseSum (head :: members) depth = .ofExcept (.error (.missingOperands members.length)) := by
  match members, h with
  | [], _ | [_], _ => rfl

/-! ### The courses of alike trees -/

mutual

/-- Alike trees have courses that resemble each other. -/
theorem resembles_courseAt : ∀ (tree : Tree) {tree' : Tree}, tree.Alike tree' → ∀ depth : Int,
    (tree.courseAt depth).Resembles id (tree'.courseAt depth)
  | node (.null _) _, _, .null, _ | node (.number _) _, _, .number, _
  | node (.word _) _, _, .word, _ | node (.unknown _ _) _, _, .unknown, _ => ⟨rfl, rfl⟩
  | node (.list _) (_ :: _), _, .unknownOperation hname hname', depth => by
    rw [courseAt, courseAt, formOf_unknown hname, formOf_unknown hname']
    refine .node rfl (.concludeList ?_ depth depth)
    -- The two courses report different names, which are no nodes.
    exact ⟨rfl, rfl⟩
  | node (.list _) (_ :: left :: right :: _), _, .sum hleft hright, depth => by
    rw [courseAt, courseAt, formOf_sum, formOf_sum]
    refine .node rfl (.concludeList ?_ depth depth)
    refine (resembles_courseAt left hleft (depth + 1)).bind fun left => ?_
    exact (resembles_courseAt right hright (depth + 1)).bind fun right => ⟨rfl, rfl⟩
  | node (.list _) (_ :: members), node _ (_ :: members'), .shortSum hshort hlength, depth => by
    have hshort' : members'.length < 2 := hlength ▸ hshort
    rw [courseAt, courseAt, formOf_sum, formOf_sum]
    simp only [courseSum_short _ hshort, courseSum_short _ hshort', hlength]
    exact .node rfl (.concludeList ⟨rfl, rfl⟩ depth depth)
  | node (.list _) members, node _ members', .sequence hhead hmembers, depth => by
    have hhead' : ∀ head ∈ members'.head?, head.wordText? = none := by
      cases hmembers with
      | nil => exact hhead
      | cons halike _ =>
        rintro _ ⟨⟩
        exact halike.wordText?_eq_none (hhead _ rfl)
    rw [courseAt, courseAt, formOf_sequence hhead, formOf_sequence hhead']
    refine .node rfl (.concludeList ?_ depth depth)
    exact (resembles_courseEach members hmembers depth).bind fun values => ⟨rfl, rfl⟩

theorem resembles_courseEach : ∀ (trees : List Tree) {trees' : List Tree},
    List.Forall₂ Alike trees trees' → ∀ depth : Int,
    (courseEach trees depth).Resembles id (courseEach trees' depth)
  | [], _, .nil, _ => ⟨rfl, rfl⟩
  | tree :: trees, _, .cons htree htrees, depth => by
    rw [courseEach, courseEach]
    refine (resembles_courseAt tree htree (depth + 1)).bind fun value => ?_
    exact (resembles_courseEach trees htrees depth).bind fun values => ⟨rfl, rfl⟩

end

/-- Programs of alike forms have courses that resemble each other. -/
theorem resembles_course_program {forms forms' : List Tree} (h : List.Forall₂ Alike forms forms')
    (value value' : Option String) :
    (Entry.program.course (node (.list value) forms)).Resembles id
      (Entry.program.course (node (.list value') forms')) := by
  rw [Entry.course, Entry.course, h.length_eq]
  exact .node rfl ((resembles_courseEach forms h 0).bind fun values => ⟨rfl, rfl⟩)

end Tree

/-- **Dead code and names do not matter.** Alike trees have the same value or fail with the same
fault, after the same number of steps, at every depth, under all limits, and whatever has been
evaluated before. So do programs of forms that are alike in pairs. -/
theorem Evaluator.alike_indistinguishable (evaluator : Evaluator) :
    (∀ tree tree' : Tree, tree.Alike tree' →
      ∀ depth, (evaluator.evaluate tree depth).Agrees (evaluator.evaluate tree' depth)) ∧
    ∀ (value value' : Option String) (forms forms' : List Tree),
      List.Forall₂ Tree.Alike forms forms' →
      (evaluator.runProgram (.node (.list value) forms)).Agrees
        (evaluator.runProgram (.node (.list value') forms')) := by
  constructor
  · intro tree tree' halike depth
    rw [evaluate, evaluate, Tree.evaluateAt_eq_follow, Tree.evaluateAt_eq_follow]
    exact (Tree.resembles_courseAt tree halike depth).agrees _ _
  · intro value value' forms forms' halike
    have hprogram (tree : Tree) : evaluator.runProgram tree =
        .ofOutcome (evaluator.limits.follow (Entry.program.course tree) ⟨evaluator.steps, []⟩) :=
      evaluator.enter_eq_follow .program tree
    rw [hprogram, hprogram]
    exact (Tree.resembles_course_program halike value value').agrees _ _

/-- The list `((foo (+ 1)) (+ x 2))` agrees with `((bar) (+ y 2 z))`, where `z` is of an unknown
kind, at a depth from which the count starts again, and under a limit that stops at the last
operand. -/
theorem Evaluator.alike_indistinguishable_renamed :
    let tree : Tree := .list
      [.list [.word (some "foo"), .list [.word (some "+"), .number 1]],
        .list [.word (some "+"), .word (some "x"), .number 2]]
    let tree' : Tree := .list
      [.list [.word (some "bar")],
        .list [.word (some "+"), .word (some "y"), .number 2, .node (.unknown "z" none) []]]
    let evaluator : Evaluator := ⟨⟨none, some 2⟩, 1⟩
    tree.Alike tree' ∧ (evaluator.evaluate tree (-1)).Agrees (evaluator.evaluate tree' (-1)) := by
  intro tree tree' evaluator
  have halike : tree.Alike tree' := by
    refine .sequence ?_ (.cons ?_ (.cons ?_ .nil))
    · rintro _ ⟨⟩
      rfl
    · exact .unknownOperation (by decide) (by decide)
    · exact .sum .word .number
  exact ⟨halike, (evaluator.alike_indistinguishable).1 tree tree' halike (-1)⟩

end PlusLisp
