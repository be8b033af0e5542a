import PlusLisp.Proofs.Evaluation.FirstFailure
import PlusLisp.Proofs.Tree.Positions

/-!
Where an evaluation goes, and what it reports on the way. It enters the live nodes in preorder, as
far as none has failed (`Entered`), takes a step for each, and reports those among them that are
lists naming no operation.

As with failures, the itineraries of the parts of a tree are put together along its regions
(`Travels.bind`).

Main statement: `Evaluator.exists_entered`.
-/

namespace PlusLisp

/-! ### What is reported -/

/-- The name of the operation that a moment finds not to exist, if it does. -/
def Moment.operation? : Moment → Option (Option String)
  | .unknownOperation name => some name
  | _ => none

/-- The name that a list asks for as an operation: the text of the word that it starts with, unless
that is `+`. -/
def Tree.unknownName? : Tree → Option (Option String)
  | node (.list _) (head :: _) => head.wordText?.filter (· ≠ some "+")
  | _ => none

/-- The name that the list at a position asks for as an operation. A program asks for none. -/
def unknownAt (entry : Entry) (tree : Tree) (path : List Nat) : Option (Option String) :=
  if entry.along path = .program then none else (tree.nodeAt? path).bind Tree.unknownName?

/-- A node is entered: it is live, and no live node fails before. -/
def Entered (entry : Entry) (tree : Tree) (path : List Nat) : Prop :=
  ∃ node, Live entry tree path node ∧ ∀ path' node' stage fault, Live entry tree path' node' →
    Fails (entry.along path') node' stage fault → Stage.entering.time path ≤ stage.time path'

section

variable {entry : Entry} {value : Option String} {members : List Tree} {label : Label}

theorem Tree.unknownName?_list (value : Option String) (members : List Tree) :
    (node (.list value) members).unknownName? =
      match formOf members with
      | .unknown name => some name
      | _ => none := by
  cases members with
  | nil => rfl
  | cons head members =>
    rw [unknownName?, formOf]
    cases head.wordText? with
    | none => rfl
    | some text => by_cases htext : text = some "+" <;> simp [htext]

theorem Tree.unknownName?_of_ne_list (h : ∀ value, label ≠ .list value) (children : List Tree) :
    (node label children).unknownName? = none := by
  cases label with
  | list value => exact absurd rfl (h value)
  | null | number | word | unknown => rfl

theorem unknownAt_nil (entry : Entry) (tree : Tree) :
    unknownAt entry tree [] = if entry = .program then none else tree.unknownName? := rfl

/-- Below the root, it does not matter how a tree was handed in. -/
theorem unknownAt_cons {index : Nat} {child : Tree} (h : members[index]? = some child)
    (entry : Entry) (label : Label) :
    (fun path => unknownAt entry (.node label members) (index :: path)) =
      unknownAt .form child := by
  funext path
  have hform (entry : Entry) : entry.along (index :: path) ≠ .program := nofun
  rw [unknownAt, unknownAt, if_neg (hform entry), Entry.along_form, if_neg nofun,
    Tree.nodeAt?_cons, h, Option.bind_some]

end

namespace Course

variable {α β : Type}

/-- The names that a course finds not to be operations, in order. -/
def operations (course : Course α) : List (Option String) :=
  course.moments.filterMap Moment.operation?

theorem operations_bind (course : Course α) (next : α → Course β) :
    (course >>= next).operations =
      course.operations ++
        match course.outcome with
        | .ok value => (next value).operations
        | .error _ => [] := by
  obtain ⟨outcome, moments⟩ := course
  cases outcome with
  | ok value => exact List.filterMap_append
  | error fault => exact (List.append_nil _).symm

theorem operations_node (depth : Int) (rest : Course α) :
    (do note (.node depth); rest).operations = rest.operations := rfl

/-- The moment at the end of a list reports no operation. -/
theorem operations_concludeList (depth : Int) (course : Course Tree) :
    (course.concludeList depth).operations = course.operations := by
  rw [concludeList, operations_bind]
  cases course.outcome with
  | error fault => exact List.append_nil _
  | ok value =>
    by_cases h : depth = 0
    · subst h
      exact List.append_nil _
    · simp only [h, if_false]
      exact List.append_nil _

theorem steps_bind (course : Course α) (next : α → Course β) :
    (course >>= next).steps =
      course.steps +
        match course.outcome with
        | .ok value => (next value).steps
        | .error _ => 0 := by
  rw [steps, depths_bind, List.length_append]
  cases course.outcome <;> rfl

end Course

/-! ### Entered nodes -/

namespace Stage

variable {index : Nat} {path : List Nat}

theorem entering_time_le (h : path < [index]) {time : List ℕ∞} (htime : [↑index] ≤ time) :
    entering.time path ≤ time := by
  refine le_trans ?_ htime
  cases path with
  | nil => exact nil_le_word _
  | cons first path =>
    obtain hlt | ⟨-, hnil⟩ := List.cons_lt_cons_iff.mp h
    · exact (List.cons_lt_cons_iff.mpr (.inl (Nat.cast_lt.mpr hlt))).le
    · exact absurd hnil (List.not_lt_nil path)

theorem le_entering_time (h : [index] ≤ path) : [↑index] ≤ entering.time path := by
  cases path with
  | nil => exact absurd (List.nil_lt_cons index []) (not_lt.mpr h)
  | cons first path =>
    refine singleton_le_cons (Nat.cast_le.mpr (not_lt.mp fun hlt => ?_)) _
    exact absurd (List.cons_lt_cons_iff.mpr (.inl hlt)) (not_lt.mpr h)

end Stage

namespace Region

variable {index : Nat} {path : List Nat} {r s : Region}

/-- The paths to the nodes of a region that no failure comes before. -/
def entered (r : Region) : Set (List Nat) :=
  {path ∈ r.paths | ∀ failure ∈ r.faults, Stage.entering.time path ≤ failure.1}

/-- A failure keeps all that lies later from being entered. -/
theorem entered_union_of_mem (huntil : r.Until index) (hfrom : s.From index)
    {failure : List ℕ∞ × Fault} (hfailure : failure ∈ r.faults) : (r ∪ s).entered = r.entered := by
  ext path
  constructor
  · rintro ⟨hpath | hpath, hall⟩
    · exact ⟨hpath, fun failure hfailure => hall failure (.inl hfailure)⟩
    · have hlate := Stage.le_entering_time (hfrom.paths path hpath)
      exact absurd (huntil.faults _ hfailure) (not_lt.mpr (hlate.trans (hall _ (.inl hfailure))))
  · rintro ⟨hpath, hall⟩
    refine ⟨.inl hpath, ?_⟩
    rintro failure (hfailure | hfailure)
    · exact hall failure hfailure
    · exact Stage.entering_time_le (huntil.paths path hpath) (hfrom.faults failure hfailure)

/-- What cannot fail is entered as a whole, and leaves what lies later as it is. -/
theorem entered_union_of_faults_eq (huntil : r.Until index) (hfrom : s.From index)
    (hfaults : r.faults = ∅) : (r ∪ s).entered = r.entered ∪ s.entered := by
  have hunion : (r ∪ s).faults = s.faults := by
    rw [faults_union, hfaults, Set.empty_union]
  ext path
  rw [entered, hunion]
  constructor
  · rintro ⟨hpath | hpath, hall⟩
    · refine .inl ⟨hpath, fun failure hfailure => ?_⟩
      rw [hfaults] at hfailure
      exact hfailure.elim
    · exact .inr ⟨hpath, hall⟩
  · rintro (⟨hpath, -⟩ | ⟨hpath, hall⟩)
    · refine ⟨.inl hpath, fun failure hfailure => ?_⟩
      exact Stage.entering_time_le (huntil.paths path hpath) (hfrom.faults failure hfailure)
    · exact ⟨.inr hpath, hall⟩

theorem entered_below (index : Nat) (r : Region) :
    (r.below index).entered = List.cons index '' r.entered := by
  ext path
  constructor
  · rintro ⟨⟨path, hpath, rfl⟩, hall⟩
    refine ⟨path, ⟨hpath, fun failure hfailure => ?_⟩, rfl⟩
    have hle := hall (↑index :: failure.1, failure.2) ⟨failure.1, rfl, hfailure⟩
    rw [Stage.time_cons] at hle
    exact not_lt.mp fun hlt => not_lt.mpr hle (List.cons_lt_cons_iff.mpr (.inr ⟨rfl, hlt⟩))
  · rintro ⟨path, ⟨hpath, hall⟩, rfl⟩
    refine ⟨⟨path, hpath, rfl⟩, ?_⟩
    rintro failure ⟨time, htime, hfailure⟩
    rw [htime, Stage.time_cons]
    exact List.cons_le_cons _ (hall _ hfailure)

theorem mem_entered_ofTree_iff {entry : Entry} {tree : Tree} :
    path ∈ (ofTree entry tree).entered ↔ Entered entry tree path := by
  constructor
  · rintro ⟨⟨node, hlive⟩, hall⟩
    refine ⟨node, hlive, fun path' node' stage fault hlive' hfails => ?_⟩
    exact hall (stage.time path', fault) ⟨path', node', stage, hlive', hfails, rfl⟩
  · rintro ⟨node, hlive, hall⟩
    refine ⟨⟨node, hlive⟩, ?_⟩
    rintro ⟨-, fault⟩ ⟨path', node', stage, hlive', hfails, rfl⟩
    exact hall path' node' stage fault hlive' hfails

end Region

/-! ### Itineraries -/

/-- The nodes that a course through a region enters, told by their paths. The course goes to them in
order, takes a step for each, and reports the names that they have. -/
structure Itinerary {α : Type} (course : Course α) (r : Region)
    (name : List Nat → Option (Option String)) (paths : List (List Nat)) : Prop where
  steps : course.steps = paths.length
  operations : course.operations = paths.filterMap name
  increasing : paths.Pairwise (· < ·)
  mem_iff : ∀ path, path ∈ paths ↔ path ∈ r.entered

/-- A course through a region has an itinerary. -/
def Travels {α : Type} (course : Course α) (r : Region)
    (name : List Nat → Option (Option String)) : Prop :=
  ∃ paths, Itinerary course r name paths

namespace Travels

variable {α β : Type} {course : Course α} {next : α → Course β} {r s : Region}
  {name : List Nat → Option (Option String)} {index : Nat}

/-- One course after the other, through one region after the other. When the first fails, nothing in
the second region is entered. -/
theorem bind (h : Travels course r name) (hsettles : Settles course r) (huntil : r.Until index)
    (hnext : ∀ value, course.outcome = .ok value → Travels (next value) s name)
    (hfrom : s.From index) : Travels (course >>= next) (r ∪ s) name := by
  obtain ⟨paths, h⟩ := h
  cases houtcome : course.outcome with
  | error fault =>
    -- The second course does not begin, and its region is shut off by a failure in the first.
    obtain ⟨time, hmem, -⟩ := hsettles.first fault houtcome
    refine ⟨paths, ?_, ?_, h.increasing, ?_⟩
    · rw [Course.steps_bind, houtcome]
      exact h.steps
    · rw [Course.operations_bind, houtcome, h.operations]
      exact List.append_nil _
    · rw [Region.entered_union_of_mem huntil hfrom hmem]
      exact h.mem_iff
  | ok value =>
    obtain ⟨later, hlater⟩ := hnext value houtcome
    refine ⟨paths ++ later, ?_, ?_, ?_, fun path => ?_⟩
    · rw [Course.steps_bind, houtcome, List.length_append, h.steps, ← hlater.steps]
    · rw [Course.operations_bind, houtcome, List.filterMap_append, h.operations,
        ← hlater.operations]
    · refine List.pairwise_append.mpr ⟨h.increasing, hlater.increasing, ?_⟩
      intro path hpath path' hpath'
      have hfirst := huntil.paths path ((h.mem_iff path).mp hpath).1
      exact hfirst.trans_le (hfrom.paths path' ((hlater.mem_iff path').mp hpath').1)
    · rw [List.mem_append, h.mem_iff, hlater.mem_iff,
        Region.entered_union_of_faults_eq huntil hfrom (hsettles.sound value houtcome)]
      exact Iff.rfl

/-- What comes after all nodes and reports nothing new leaves the itinerary as it is. -/
theorem afterwards (h : Travels course r name) (hsteps : ∀ value, (next value).steps = 0)
    (hoperations : ∀ value, (next value).operations = []) :
    Travels (course >>= next) r name := by
  obtain ⟨paths, h⟩ := h
  refine ⟨paths, ?_, ?_, h.increasing, h.mem_iff⟩
  · rw [Course.steps_bind, h.steps]
    cases course.outcome with
    | ok value => exact congrArg (paths.length + ·) (hsteps value)
    | error fault => rfl
  · rw [Course.operations_bind, h.operations]
    cases course.outcome with
    | ok value => exact (congrArg _ (hoperations value)).trans (List.append_nil _)
    | error fault => exact List.append_nil _

theorem map (h : Travels course r name) (result : α → β) :
    Travels (do let value ← course; return result value) r name :=
  h.afterwards (fun _ => rfl) (fun _ => rfl)

theorem concludeList {course : Course Tree} (h : Travels course r name) (depth : Int) :
    Travels (course.concludeList depth) r name := by
  refine h.afterwards (fun value => ?_) (fun value => ?_)
  · split <;> rfl
  · split <;> rfl

/-- A course that enters no node, through a region without nodes. -/
theorem of_paths_eq_empty (hpaths : r.paths = ∅) (hsteps : course.steps = 0)
    (hoperations : course.operations = []) : Travels course r name := by
  refine ⟨[], hsteps, hoperations, .nil, fun path => ⟨nofun, fun h => ?_⟩⟩
  have hmem : path ∈ r.paths := h.1
  rw [hpaths] at hmem
  exact hmem.elim

/-- A course that enters the root only, because the region is no larger or because the root fails at
once. -/
theorem of_root (hroot : [] ∈ r.paths)
    (honly : ∀ path ∈ r.paths, path = [] ∨ ∃ fault, ([], fault) ∈ r.faults)
    (hsteps : course.steps = 1) (hoperations : course.operations = (name []).toList) :
    Travels course r name := by
  have hname : [[]].filterMap name = (name []).toList := by
    cases hroot : name [] <;> simp [hroot]
  refine ⟨[[]], hsteps, hoperations.trans hname.symm, List.pairwise_singleton _ _, fun path => ?_⟩
  rw [List.mem_singleton]
  constructor
  · rintro rfl
    exact ⟨hroot, fun failure _ => nil_le_word failure.1⟩
  · rintro ⟨hpath, hall⟩
    obtain rfl | ⟨fault, hfault⟩ := honly path hpath
    · rfl
    · have htime := (hall _ hfault).antisymm (nil_le_word _)
      exact List.map_eq_nil_iff.mp htime

theorem node (depth : Int) (hname : name [] = none) :
    Travels (Course.note (.node depth)) .root name := by
  refine of_root rfl (fun path hpath => .inl hpath) rfl ?_
  rw [hname]
  rfl

theorem below (h : Travels course r fun path => name (index :: path)) :
    Travels course (r.below index) name := by
  obtain ⟨paths, h⟩ := h
  refine ⟨paths.map (List.cons index), ?_, ?_, ?_, fun path => ?_⟩
  · rw [List.length_map, h.steps]
  · rw [List.filterMap_map, h.operations]
    rfl
  · exact h.increasing.map _ fun path path' hlt => List.cons_lt_cons_iff.mpr (.inr ⟨rfl, hlt⟩)
  · rw [List.mem_map, Region.entered_below]
    exact exists_congr fun path => and_congr_left' (h.mem_iff path)

end Travels

/-! ### The itineraries of trees -/

namespace Tree

open Region

variable {value : Option String} {members : List Tree} {entry : Entry}

theorem unknownAt_nil_list (entry : Entry) (value : Option String) (members : List Tree) :
    unknownAt entry (node (.list value) members) [] =
      match entry.formOf members with
      | .unknown name => some name
      | _ => none := by
  rw [unknownAt_nil, unknownName?_list]
  cases entry <;> rfl

/-- A tree that is no list is a step, or it fails at once. -/
theorem travels_of_ne_list {label : Label} (h : ∀ value, label ≠ .list value) (entry : Entry)
    (children : List Tree) (depth : Int) :
    Travels ((node label children).courseAt depth) (ofTree entry (node label children))
      (unknownAt entry (node label children)) := by
  have hname : unknownAt entry (node label children) [] = none := by
    rw [unknownAt_nil, unknownName?_of_ne_list h, ite_self]
  cases label with
  | list value => exact absurd rfl (h value)
  | unknown kind value =>
    refine .of_root ⟨_, .root⟩ (fun _ _ => .inr ⟨_, mem_faults_of_entering .unknownTree⟩) rfl ?_
    rw [hname]
    rfl
  | null | number | word =>
    rw [ofTree_eq_root (fun _ _ => id) (by rintro _ _ ⟨⟩)]
    exact (Travels.node depth hname).map _

/-- A list that is a sequence is a step, and its members follow. -/
theorem travels_sequence {depth : Int} {course : Course Tree}
    (hform : entry.formOf members = .sequence)
    (hcourse : Travels course (ofChildren (Numbered 0 members))
      (unknownAt entry (node (.list value) members))) :
    Travels (do Course.note (.node depth); course) (ofTree entry (node (.list value) members))
      (unknownAt entry (node (.list value) members)) := by
  have hname : unknownAt entry (node (.list value) members) [] = none := by
    rw [unknownAt_nil_list, hform]
  rw [ofTree_sequence hform]
  exact (Travels.node depth hname).bind (.node depth) (until_root 0) (fun _ _ => hcourse)
    (from_ofChildren fun _ _ h => h.1)

/-- A list that asks for an operation that does not exist is a step, and nothing follows. -/
theorem ofTree_unknown {name : Option String} (hform : entry.formOf members = .unknown name) :
    ofTree entry (node (.list value) members) = root := by
  refine ofTree_eq_root (fun index child hgoes => ?_) (fun stage fault hfails => ?_)
  · obtain ⟨-, hgoes⟩ := hgoes
    rw [hform] at hgoes
    exact hgoes
  · cases hform.symm.trans hfails.formOf_eq

private theorem unknownAt_nil_of_sum (value : Option String) (hform : formOf members = .sum) :
    unknownAt .form (node (.list value) members) [] = none := by
  have hsum : Entry.form.formOf members = .sum := hform
  rw [unknownAt_nil_list, hsum]

mutual

theorem travels_courseAt : ∀ (tree : Tree) (depth : Int),
    Travels (tree.courseAt depth) (ofTree .form tree) (unknownAt .form tree)
  | node (.null _) children, depth | node (.number _) children, depth
  | node (.word _) children, depth | node (.unknown _ _) children, depth => by
    apply travels_of_ne_list
    rintro _ ⟨⟩
  | node (.list value) members, depth => by
    rw [courseAt]
    cases hform : formOf members with
    | unknown name =>
      have hunknown : Entry.form.formOf members = .unknown name := hform
      rw [ofTree_unknown hunknown]
      refine .of_root rfl (fun path hpath => .inl hpath) ?_ ?_
      · rw [Course.steps, Course.depths_node, Course.depths_concludeList]
        rfl
      · rw [unknownAt_nil_list, hunknown, Course.operations_node, Course.operations_concludeList]
        rfl
    | sum => exact travels_courseSum members depth value hform
    | sequence =>
      have hcourse := travels_courseEach members depth 0 _ fun _ _ h =>
        unknownAt_cons h.2 .form (.list value)
      exact travels_sequence hform ((hcourse.map list).concludeList depth)

private theorem travels_courseSum : ∀ (members : List Tree) (depth : Int) (value : Option String),
    formOf members = .sum →
    Travels (do Course.note (.node depth); (courseSum members depth).concludeList depth)
      (ofTree .form (node (.list value) members)) (unknownAt .form (node (.list value) members))
  | [], _, value, hform | [_], _, value, hform | [_, _], _, value, hform => by
    have hname := unknownAt_nil_of_sum value hform
    -- The root is entered and fails at once; its members may be live, but come too late.
    refine .of_root ⟨_, .root⟩ (fun _ _ => .inr ⟨_, mem_faults_of_entering
      (.missingOperands hform (by simp))⟩) rfl ?_
    rw [hname]
    rfl
  | head :: left :: right :: members, depth, value, hform => by
    have hname := unknownAt_nil_of_sum value hform
    have hleft := travels_courseAt left (depth + 1)
    have hright := travels_courseAt right (depth + 1)
    have hmember : (head :: left :: right :: members)[1]? = some left := rfl
    have hmember' : (head :: left :: right :: members)[2]? = some right := rfl
    rw [← unknownAt_cons hmember .form (.list value)] at hleft
    rw [← unknownAt_cons hmember' .form (.list value)] at hright
    -- A sum with operands fails after them only, so that nothing in it is shut off by its root.
    have hlate (index : Nat) :
        (ofRoot .form (node (.list value) (head :: left :: right :: members))).From index := by
      refine from_ofRoot ?_ index
      intro fault h
      exact absurd h.length_lt (by simp)
    rw [ofTree_sum hform, courseSum]
    refine (Travels.node depth hname).bind (.node depth) (until_root 0) ?_
      ((from_below (by omega) _).union ((from_below (by omega) _).union (hlate 0)))
    intro _ _
    refine Travels.concludeList ?_ depth
    refine hleft.below.bind ((settles_courseAt left (depth + 1)).below 1) (until_below 1 _) ?_
      ((from_below (by omega) _).union (hlate 2))
    intro left' _
    refine hright.below.bind ((settles_courseAt right (depth + 1)).below 2) (until_below 2 _) ?_
      (hlate 3)
    intro right' _
    exact .of_paths_eq_empty rfl rfl rfl

theorem travels_courseEach : ∀ (trees : List Tree) (depth : Int) (first : Nat)
    (name : List Nat → Option (Option String)),
    (∀ index tree, Numbered first trees index tree →
      (fun path => name (index :: path)) = unknownAt .form tree) →
    Travels (courseEach trees depth) (ofChildren (Numbered first trees)) name
  | [], depth, first, name, _ => by
    have hnone : Numbered first [] = fun _ _ => False := by
      funext index child
      simp [Numbered]
    rw [hnone, ofChildren_false]
    exact .of_paths_eq_empty rfl rfl rfl
  | tree :: trees, depth, first, name, hname => by
    have htree := travels_courseAt tree (depth + 1)
    rw [numbered_cons] at hname
    rw [← hname first tree (.inl ⟨rfl, rfl⟩)] at htree
    have htrees := travels_courseEach trees depth (first + 1) name fun index child hmem =>
      hname index child (.inr hmem)
    rw [courseEach, numbered_cons, ofChildren_or, ofChildren_one]
    exact htree.below.bind ((settles_courseAt tree (depth + 1)).below first) (until_below first _)
      (fun value _ => htrees.map _) (from_ofChildren fun _ _ h => h.1)

end

end Tree

/-- The course of a tree that is handed in goes through all of the tree. -/
theorem Entry.travels_course (entry : Entry) (tree : Tree) :
    Travels (entry.course tree) (.ofTree entry tree) (unknownAt entry tree) := by
  cases entry with
  | form => exact tree.travels_courseAt 0
  | program =>
    obtain ⟨label, forms⟩ := tree
    cases label with
    | list value =>
      refine Tree.travels_sequence rfl ?_
      have hforms := Tree.travels_courseEach forms 0 0 _ fun _ _ h =>
        unknownAt_cons h.2 .program (.list value)
      exact hforms.afterwards (fun _ => rfl) (fun _ => rfl)
    | null | number | word | unknown =>
      rw [Entry.course]
      · apply Tree.travels_of_ne_list
        rintro _ ⟨⟩
      · simp

/-! ### Reports -/

/-- Holds of the moments that can come of a node below the root. -/
def Moment.IsInner : Moment → Prop
  | .node _ | .unknownOperation _ => True
  | .evaluated | .finished _ => False

/-- Holds of the courses that stay below the root. -/
def Course.IsInner {α : Type} (course : Course α) : Prop :=
  ∀ moment ∈ course.moments, moment.IsInner

namespace Course.IsInner

variable {α β : Type} {course : Course α} {next : α → Course β}

theorem ofExcept (outcome : Except Fault α) : IsInner (.ofExcept outcome) := nofun

theorem note {moment : Moment} (hmoment : moment.IsInner) (h : course.IsInner) :
    IsInner (do Course.note moment; course) := by
  intro moment' hmem
  obtain rfl | hmem := List.mem_cons.mp hmem
  · exact hmoment
  · exact h moment' hmem

theorem bind (h : course.IsInner) (hnext : ∀ value, (next value).IsInner) :
    (course >>= next).IsInner := by
  obtain ⟨outcome, moments⟩ := course
  cases outcome with
  | error fault => exact h
  | ok value =>
    intro moment hmem
    exact (List.mem_append.mp hmem).elim (h moment) (hnext value moment)

theorem concludeList {course : Course Tree} (h : course.IsInner) {depth : Int}
    (hdepth : 0 < depth) : (course.concludeList depth).IsInner := by
  refine h.bind fun value => ?_
  rw [if_neg hdepth.ne']
  exact .ofExcept (.ok value)

end Course.IsInner

namespace Tree

mutual

theorem isInner_courseAt : ∀ (tree : Tree) (depth : Int), 0 < depth →
    (tree.courseAt depth).IsInner
  | node (.null _) _, depth, _ | node (.number _) _, depth, _ | node (.word _) _, depth, _
  | node (.unknown _ _) _, depth, _ => .note trivial (.ofExcept _)
  | node (.list _) members, depth, hdepth => by
    rw [courseAt]
    refine .note trivial (Course.IsInner.concludeList ?_ hdepth)
    cases formOf members with
    | unknown name => exact .note trivial (.ofExcept _)
    | sum => exact isInner_courseSum members depth hdepth
    | sequence => exact (isInner_courseEach members depth hdepth.le).bind fun _ => .ofExcept _

private theorem isInner_courseSum : ∀ (members : List Tree) (depth : Int), 0 < depth →
    (courseSum members depth).IsInner
  | [], _, _ | [_], _, _ | [_, _], _, _ => .ofExcept _
  | _ :: left :: right :: _, depth, hdepth => by
    rw [courseSum]
    refine (isInner_courseAt left (depth + 1) (by omega)).bind fun _ => ?_
    exact (isInner_courseAt right (depth + 1) (by omega)).bind fun _ => .ofExcept _

theorem isInner_courseEach : ∀ (trees : List Tree) (depth : Int), 0 ≤ depth →
    (courseEach trees depth).IsInner
  | [], _, _ => .ofExcept _
  | tree :: trees, depth, hdepth => by
    rw [courseEach]
    refine (isInner_courseAt tree (depth + 1) (by omega)).bind fun _ => ?_
    exact (isInner_courseEach trees depth hdepth).bind fun _ => .ofExcept _

end

end Tree

/-- Without limits a course below the root is taken to its end, and reports its operations. -/
theorem Limits.follow_inner {α : Type} {course : Course α} (h : course.IsInner) (p : Progress) :
    ∃ steps, unlimited.follow course p =
      (course.outcome, ⟨steps, (course.operations.map .unknownOperation).reverse ++ p.log⟩) := by
  obtain ⟨outcome, moments⟩ := course
  simp only [follow, Course.operations]
  induction moments generalizing p with
  | nil => exact ⟨p.steps, rfl⟩
  | cons moment moments ih =>
    have hrest := fun moment hmem => h moment (List.mem_cons_of_mem _ hmem)
    have hinner := h moment List.mem_cons_self
    cases moment with
    | node depth =>
      obtain ⟨steps, hpass⟩ := ih (p.entering depth).step hrest
      have hlog : (p.entering depth).step.log = p.log := by
        rw [Progress.entering]
        split <;> rfl
      rw [hlog] at hpass
      exact ⟨steps, hpass⟩
    | unknownOperation name =>
      obtain ⟨steps, hpass⟩ := ih (p.report (.unknownOperation name)) hrest
      have hnames : (Moment.unknownOperation name :: moments).filterMap Moment.operation? =
          name :: moments.filterMap Moment.operation? := rfl
      refine ⟨steps, hpass.trans ?_⟩
      rw [hnames, List.map_cons, List.reverse_cons, List.append_assoc]
      rfl
    | evaluated => exact hinner.elim
    | finished forms => exact hinner.elim

/-- What a program reports are its operations that do not exist, and its end if it comes to one. -/
theorem Evaluator.log_program (steps : Nat) (value : Option String) (forms : List Tree) :
    let evaluation := (Evaluator.mk .unlimited steps).enter .program (.node (.list value) forms)
    evaluation.log =
      (Entry.program.course (.node (.list value) forms)).operations.map .unknownOperation ++
        match evaluation.outcome with
        | .ok _ => [.finished forms.length evaluation.steps]
        | .error _ => [] := by
  obtain ⟨spent, hforms⟩ := Limits.follow_inner (Tree.isInner_courseEach forms 0 le_rfl) ⟨1, []⟩
  have hfree : Limits.unlimited.breach? 0 0 = none := rfl
  rw [enter_eq_follow, Entry.course, Limits.follow_node, Progress.entering, if_pos rfl, hfree]
  simp only [Progress.step, Limits.follow_bind]
  rw [hforms, Course.operations_node, Course.operations_bind]
  cases (Tree.courseEach forms 0).outcome with
  | ok values =>
    show (Event.finished forms.length spent :: (List.reverse _ ++ [])).reverse =
      List.map _ (_ ++ []) ++ [.finished forms.length spent]
    rw [List.append_nil, List.append_nil, List.reverse_cons, List.reverse_reverse]
  | error fault =>
    show (List.reverse _ ++ []).reverse = List.map _ (_ ++ []) ++ []
    rw [List.append_nil, List.append_nil, List.append_nil, List.reverse_reverse]

/-- **Where a program goes and what it reports**, without limits: it enters the live nodes in
preorder up to the first failure, takes a step for each, and reports which of them ask for an
operation that does not exist. Then it reports its end, if it comes to one. -/
theorem Evaluator.exists_entered (steps : Nat) (value : Option String) (forms : List Tree) :
    let tree := Tree.node (.list value) forms
    let evaluation := (Evaluator.mk .unlimited steps).enter .program tree
    ∃ entered : List (List Nat), entered.Pairwise (· < ·) ∧
      (∀ path, path ∈ entered ↔ Entered .program tree path) ∧
      evaluation.steps = entered.length ∧
      evaluation.log = (entered.filterMap (unknownAt .program tree)).map .unknownOperation ++
        match evaluation.outcome with
        | .ok _ => [.finished forms.length evaluation.steps]
        | .error _ => [] := by
  intro tree evaluation
  obtain ⟨entered, h⟩ := Entry.program.travels_course tree
  refine ⟨entered, h.increasing, fun path => (h.mem_iff path).trans Region.mem_entered_ofTree_iff,
    ?_, ?_⟩
  · exact (enter_unlimited steps .program tree).2.trans h.steps
  · rw [← h.operations]
    exact log_program steps value forms

end PlusLisp
