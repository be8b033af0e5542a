import PlusLisp.Proofs.Evaluation.Course
import PlusLisp.Proofs.Tree.Preorder

/-!
Properties that evaluation keeps. What evaluation does to values is to add them and to list them, so
that it keeps every property that sums and lists keep.

Main statement: `Tree.Keeps.of_course`.
-/

namespace PlusLisp

namespace Tree

/-- Holds of the nodes that stand for themselves, with all that is below them. -/
def IsOwnValue : Tree → Prop
  | node (.null _) _ | node (.number _) _ => True
  | _ => False

/-- Holds of the properties that evaluation keeps: what is made of values with such a property has
it, too. -/
structure Keeps (P : Tree → Prop) : Prop where
  null : P null
  sum : ∀ left right value, P left → P right → left.sum right = .ok value → P value
  list : ∀ values, (∀ value ∈ values, P value ∧ value.isNull = false) → P (list values)

namespace Keeps

variable {P : Tree → Prop}

mutual

/-- What a tree evaluates to has a property that evaluation keeps, if what stands for itself in the
tree has it. -/
theorem of_courseAt (keeps : Keeps P) : ∀ (tree : Tree) (depth : Int) (value : Tree),
    (∀ leaf ∈ tree.subtrees, leaf.IsOwnValue → P leaf) →
    (tree.courseAt depth).outcome = .ok value → P value
  | node (.null _) _, _, _, hleaves, h | node (.number _) _, _, _, hleaves, h => by
    cases h
    exact hleaves _ (self_mem_subtrees _) trivial
  | node (.word _) _, _, _, _, h => by
    cases h
    exact keeps.null
  | node (.unknown _ _) _, _, _, _, h => by cases h
  | node (.list _) members, depth, value, hleaves, h => by
    rw [courseAt, Course.outcome_note, Course.outcome_concludeList] at h
    have hmembers : ∀ leaf ∈ subtreesEach members, leaf.IsOwnValue → P leaf :=
      fun leaf hmem => hleaves leaf (List.mem_cons_of_mem _ hmem)
    cases hform : formOf members with
    | unknown name =>
      rw [hform] at h
      cases h
      exact keeps.null
    | sum =>
      rw [hform] at h
      exact of_courseSum keeps members depth value hmembers h
    | sequence =>
      rw [hform] at h
      obtain ⟨values, hvalues, hlist⟩ := Course.outcome_bind_eq_ok.mp h
      cases hlist
      exact keeps.list values (of_courseEach keeps members depth values hmembers hvalues)

private theorem of_courseSum (keeps : Keeps P) :
    ∀ (members : List Tree) (depth : Int) (value : Tree),
    (∀ leaf ∈ subtreesEach members, leaf.IsOwnValue → P leaf) →
    (courseSum members depth).outcome = .ok value → P value
  | [], _, _, _, h | [_], _, _, _, h | [_, _], _, _, _, h => by cases h
  | _ :: left :: right :: _, depth, value, hleaves, h => by
    rw [courseSum, Course.outcome_bind_eq_ok] at h
    obtain ⟨leftValue, hleft, h⟩ := h
    obtain ⟨rightValue, hright, hsum⟩ := Course.outcome_bind_eq_ok.mp h
    refine keeps.sum leftValue rightValue value ?_ ?_ hsum
    · refine of_courseAt keeps left (depth + 1) leftValue (fun leaf hmem => hleaves leaf ?_) hleft
      simp [subtreesEach, hmem]
    · refine of_courseAt keeps right (depth + 1) rightValue (fun leaf hmem => hleaves leaf ?_)
        hright
      simp [subtreesEach, hmem]

theorem of_courseEach (keeps : Keeps P) :
    ∀ (trees : List Tree) (depth : Int) (values : List Tree),
    (∀ leaf ∈ subtreesEach trees, leaf.IsOwnValue → P leaf) →
    (courseEach trees depth).outcome = .ok values → ∀ value ∈ values, P value ∧ value.isNull = false
  | [], _, _, _, h => by
    cases h
    exact List.forall_mem_nil _
  | tree :: trees, depth, values, hleaves, h => by
    rw [courseEach, Course.outcome_bind_eq_ok] at h
    obtain ⟨value, hvalue, h⟩ := h
    obtain ⟨later, hlater, h⟩ := Course.outcome_bind_eq_ok.mp h
    have hfirst : P value := of_courseAt keeps tree (depth + 1) value
      (fun leaf hmem => hleaves leaf (List.mem_append_left _ hmem)) hvalue
    have hrest := of_courseEach keeps trees depth later
      (fun leaf hmem => hleaves leaf (List.mem_append_right _ hmem)) hlater
    cases h
    cases hnull : value.isNull with
    | true => exact hrest
    | false => exact List.forall_mem_cons.mpr ⟨⟨hfirst, hnull⟩, hrest⟩

end

/-- What a tree comes to that is handed in has a property that evaluation keeps. -/
theorem of_course (keeps : Keeps P) {entry : Entry} {tree value : Tree}
    (hleaves : ∀ leaf ∈ tree.subtrees, leaf.IsOwnValue → P leaf)
    (h : (entry.course tree).outcome = .ok value) : P value := by
  revert hleaves h
  refine Entry.course_induction (motive := fun tree course =>
    (∀ leaf ∈ tree.subtrees, leaf.IsOwnValue → P leaf) → course.outcome = .ok value → P value)
    ?_ ?_ entry tree
  · intro tree
    exact keeps.of_courseAt tree 0 value
  · intro text forms hleaves h
    rw [Entry.course, Course.outcome_note] at h
    obtain ⟨values, hvalues, hlist⟩ := Course.outcome_bind_eq_ok.mp h
    cases hlist
    have hforms : ∀ leaf ∈ subtreesEach forms, leaf.IsOwnValue → P leaf :=
      fun leaf hmem => hleaves leaf (List.mem_cons_of_mem _ hmem)
    exact keeps.list values (keeps.of_courseEach forms 0 values hforms hvalues)

end Keeps

end Tree

/-- A program comes to a list. -/
theorem Entry.exists_list_of_program {forms : List Tree} {value : Tree}
    (h : (Entry.program.course (.list forms)).outcome = .ok value) :
    ∃ values, value = .list values := by
  rw [Tree.list, course, Course.outcome_note] at h
  obtain ⟨values, -, hlist⟩ := Course.outcome_bind_eq_ok.mp h
  cases hlist
  exact ⟨values, rfl⟩

end PlusLisp
