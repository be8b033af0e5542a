import Mathlib.Data.List.Chain
import PlusLisp.Proofs.Evaluation.Causes

/-!
Limits are transparent: they decide how far an evaluation gets and nothing else.

A course enters the root first, stays below it afterwards, and goes down by one level at a time
(`Tree.startsAt_courseAt`). Limits let its nodes pass one by one or stop at one of them
(`Limits.fares_pass_root`), so what they do can be told from the depths of the nodes alone: all is
well when no node is too deep and there are not too many of them (`Limits.allows_iff`), and a
limit on the depth is breached at the level next to it (`Limits.Fares.of_depthExceeded`).

Main statement: `Evaluator.limits_transparent`.
-/

namespace PlusLisp

/-! ### The depths along a course -/

/-- Depths that start at a level, if there are any, stay at it or below, and increase by at most
one from each to the next. -/
structure Descends (level : Int) (depths : List Int) : Prop where
  least : ∀ depth ∈ depths, level ≤ depth
  first : ∀ depth ∈ depths.head?, depth ≤ level
  gradual : depths.IsChain fun depth next => next ≤ depth + 1

namespace Descends

variable {level : Int} {depths later : List Int}

theorem nil : Descends level [] := ⟨by simp, by simp, .nil⟩

/-- What comes after depths that start at a level may start at that level again. -/
theorem append (h : Descends level depths) (h' : Descends level later) :
    Descends level (depths ++ later) := by
  refine ⟨?_, ?_, ?_⟩
  · intro depth mem
    rcases List.mem_append.mp mem with mem | mem
    · exact h.least depth mem
    · exact h'.least depth mem
  · intro depth mem
    cases depths with
    | nil => exact h'.first depth mem
    | cons head tail => exact h.first depth mem
  · apply h.gradual.append h'.gradual
    intro last isLast next isNext
    have below := h.least last (List.mem_of_mem_getLast? isLast)
    have above := h'.first next isNext
    omega

/-- A level may be followed by depths that start one level below. -/
theorem cons (h : Descends (level + 1) depths) : Descends level (level :: depths) := by
  refine ⟨?_, ?_, ?_⟩
  · intro depth mem
    rcases List.mem_cons.mp mem with rfl | mem
    · exact Int.le_refl _
    · have := h.least depth mem
      omega
  · simp
  · exact List.isChain_cons.mpr ⟨h.first, h.gradual⟩

variable {α β : Type}

/-- One course after the other, each of which starts at the level. -/
theorem bind {course : Course α} {next : α → Course β} (h : Descends level course.depths)
    (h' : ∀ value, course.outcome = .ok value → Descends level (next value).depths) :
    Descends level (course >>= next).depths := by
  rw [Course.depths_bind]
  refine h.append ?_
  cases outcome : course.outcome with
  | ok value => exact h' value outcome
  | error fault => exact nil

end Descends

/-- A course that enters a node at a level first and then stays below it. -/
def Course.StartsAt {α : Type} (level : Int) (course : Course α) : Prop :=
  ∃ rest : Course α, course = (do Course.note (.node level); rest) ∧
    Descends (level + 1) rest.depths

theorem Course.StartsAt.descends {α : Type} {level : Int} {course : Course α}
    (h : course.StartsAt level) : Descends level course.depths := by
  obtain ⟨rest, rfl, below⟩ := h
  exact below.cons

namespace Tree

mutual

/-- The course of a tree enters its root first and goes on below it. -/
theorem startsAt_courseAt : ∀ (tree : Tree) (depth : Int), (tree.courseAt depth).StartsAt depth
  | node (.null value) children, depth => ⟨pure (node (.null value) children), rfl, .nil⟩
  | node (.number n) children, depth => ⟨pure (node (.number n) children), rfl, .nil⟩
  | node (.word _) _, depth => ⟨pure null, rfl, .nil⟩
  | node (.unknown kind _) _, depth => ⟨.ofExcept (.error (.unknownTree kind)), rfl, .nil⟩
  | node (.list _) children, depth => by
    rw [courseAt]
    refine ⟨_, rfl, ?_⟩
    rw [Course.depths_concludeList]
    cases formOf children with
    | unknown name => exact .nil
    | sum => exact descends_courseSum children depth
    | sequence =>
      rw [Course.depths_bind_pure]
      exact descends_courseEach children depth

private theorem descends_courseSum : ∀ (members : List Tree) (depth : Int),
    Descends (depth + 1) (courseSum members depth).depths
  | [], _ | [_], _ | [_, _], _ => .nil
  | _ :: left :: right :: _, depth => by
    rw [courseSum]
    apply (startsAt_courseAt left (depth + 1)).descends.bind
    intro left _
    apply (startsAt_courseAt right (depth + 1)).descends.bind
    intro right _
    exact .nil

theorem descends_courseEach : ∀ (trees : List Tree) (depth : Int),
    Descends (depth + 1) (courseEach trees depth).depths
  | [], _ => .nil
  | tree :: trees, depth => by
    rw [courseEach]
    apply (startsAt_courseAt tree (depth + 1)).descends.bind
    intro value _
    rw [Course.depths_bind_pure]
    exact descends_courseEach trees depth

end

end Tree

/-- A course from depth 0 enters its root first and goes on below it. -/
theorem Entry.startsAt_course (entry : Entry) (tree : Tree) : (entry.course tree).StartsAt 0 := by
  refine Entry.course_induction (motive := fun _ course => course.StartsAt 0) ?_ ?_ entry tree
  · intro tree
    exact tree.startsAt_courseAt 0
  · intro value forms
    rw [Entry.course]
    exact ⟨_, rfl, (Tree.descends_courseEach forms 0).bind fun values _ => .nil⟩

/-! ### What limits make of depths -/

namespace Limits

/-- What keeps nothing from being evaluated is a depth within the limit and a step left. -/
theorem breach?_eq_none_iff {limits : Limits} {depth : Int} {steps : Nat} :
    limits.breach? depth steps = none ↔
      (∀ d ∈ limits.depth, depth ≤ d) ∧ ∀ m ∈ limits.steps, (steps : Int) < m := by
  obtain ⟨limitDepth, limitSteps⟩ := limits
  cases limitDepth <;> cases limitSteps <;> simp [breach?, Option.filter] <;> grind

/-- What keeps a node from being evaluated: its depth, or else the steps taken. -/
theorem breach?_eq_some {limits : Limits} {depth : Int} {steps : Nat} {fault : Fault}
    (h : limits.breach? depth steps = some fault) :
    (∃ d ∈ limits.depth, d < depth ∧ fault = .depthExceeded depth d) ∨
      ∃ m ∈ limits.steps, m ≤ (steps : Int) ∧ fault = .stepsExceeded (steps + 1) m := by
  obtain ⟨limitDepth, limitSteps⟩ := limits
  cases limitDepth <;> cases limitSteps <;> simp_all [breach?, Option.filter] <;> grind

theorem ownFamily_of_breach? {limits : Limits} {depth : Int} {steps : Nat} {fault : Fault}
    (h : limits.breach? depth steps = some fault) : fault.ownFamily = .limit := by
  rcases breach?_eq_some h with ⟨d, -, -, rfl⟩ | ⟨m, -, -, rfl⟩ <;> rfl

/-- Whatever stops a course halfway is a fault of the limits. -/
theorem ownFamily_of_pass {limits : Limits} {moments : List Moment} {p q : Progress}
    {fault : Fault} (h : limits.pass moments p = (some fault, q)) :
    fault.ownFamily = .limit := by
  induction moments generalizing p with
  | nil => cases h
  | cons moment moments ih =>
    cases isNode : moment.depth? with
    | some depth =>
      obtain rfl := Moment.depth?_eq_some_iff.mp isNode
      rw [pass_node] at h
      cases breach : limits.breach? depth (p.entering depth).steps with
      | some fault' =>
        rw [breach] at h
        cases h
        exact ownFamily_of_breach? breach
      | none =>
        rw [breach] at h
        exact ih h
    | none =>
      obtain ⟨p', -, same⟩ := limits.pass_other isNode moments p
      exact ih (same ▸ h)

/-- An evaluation fails because of its limits or as its course does. -/
theorem follow_eq_error {α : Type} {limits : Limits} {course : Course α} {p : Progress}
    {fault : Fault} (h : (limits.follow course p).1 = .error fault) :
    fault.ownFamily = .limit ∨ course.outcome = .error fault := by
  rcases passed : limits.pass course.moments p with ⟨_ | fault', q⟩
  · rw [follow, passed] at h
    exact .inr h
  · rw [follow, passed] at h
    cases h
    exact .inl (ownFamily_of_pass passed)

/-- Limits allow nodes at the given depths, one after the other, after a number of steps. -/
def Allows (limits : Limits) : Nat → List Int → Prop
  | _, [] => True
  | steps, depth :: depths =>
    limits.breach? depth steps = none ∧ limits.Allows (steps + 1) depths

/-- Nodes are allowed when none is too deep and they are not too many. -/
theorem allows_iff {limits : Limits} {steps : Nat} {depths : List Int} :
    limits.Allows steps depths ↔
      (∀ d ∈ limits.depth, ∀ depth ∈ depths, depth ≤ d) ∧
        (depths ≠ [] → ∀ m ∈ limits.steps, ((steps + depths.length : Nat) : Int) ≤ m) := by
  induction depths generalizing steps with
  | nil => simp [Allows]
  | cons depth depths ih =>
    rw [Allows, breach?_eq_none_iff, ih]
    constructor
    · rintro ⟨⟨shallow, left⟩, shallow', left'⟩
      constructor
      · intro d isLimit depth' mem
        rcases List.mem_cons.mp mem with rfl | mem
        · exact shallow d isLimit
        · exact shallow' d isLimit depth' mem
      · intro _ m isLimit
        cases depths with
        | nil => simpa using Int.add_one_le_of_lt (left m isLimit)
        | cons next depths =>
          have := left' (List.cons_ne_nil _ _) m isLimit
          simp only [List.length_cons] at this ⊢
          omega
    · rintro ⟨shallow, left⟩
      have few := left (List.cons_ne_nil _ _)
      refine ⟨⟨?_, ?_⟩, ?_, ?_⟩
      · intro d isLimit
        exact shallow d isLimit depth List.mem_cons_self
      · intro m isLimit
        have := few m isLimit
        simp only [List.length_cons] at this
        omega
      · intro d isLimit depth' mem
        exact shallow d isLimit depth' (List.mem_cons_of_mem _ mem)
      · intro _ m isLimit
        have := few m isLimit
        simp only [List.length_cons] at this
        omega

/-- How limits fare along nodes at the given depths after a number of steps, with the fault that
they stop at, if they do, and the steps then taken: they allow all nodes, or those before one
that they do not allow. -/
inductive Fares (limits : Limits) (steps : Nat) (depths : List Int) : Option Fault → Nat → Prop
  | allowed : limits.Allows steps depths →
      Fares limits steps depths none (steps + depths.length)
  | stopped {before after : List Int} {depth : Int} {fault : Fault} :
      depths = before ++ depth :: after → limits.Allows steps before →
      limits.breach? depth (steps + before.length) = some fault →
      Fares limits steps depths (some fault) (steps + before.length)

namespace Fares

variable {limits : Limits} {steps spent : Nat} {depth : Int} {depths : List Int}
  {stop : Option Fault}

/-- A node that is not allowed stops everything. -/
theorem here {fault : Fault} (h : limits.breach? depth steps = some fault) :
    limits.Fares steps (depth :: depths) (some fault) steps :=
  .stopped (List.nil_append _).symm trivial h

/-- A node that is allowed takes a step. -/
theorem cons (h : limits.breach? depth steps = none)
    (rest : limits.Fares (steps + 1) depths stop spent) :
    limits.Fares steps (depth :: depths) stop spent := by
  cases rest with
  | allowed allows =>
    have : limits.Fares steps (depth :: depths) none (steps + (depth :: depths).length) :=
      .allowed ⟨h, allows⟩
    rwa [List.length_cons, Nat.add_comm depths.length, ← Nat.add_assoc] at this
  | @stopped before after depth' fault split allows breach =>
    have length : steps + 1 + before.length = steps + (depth :: before).length := by
      rw [List.length_cons, Nat.add_comm before.length, Nat.add_assoc]
    rw [length] at breach ⊢
    exact .stopped (by rw [split, List.cons_append]) ⟨h, allows⟩ breach

end Fares

/-- Below the root, the count of steps does not start again. -/
theorem fares_pass {limits : Limits} {moments : List Moment} {p : Progress}
    (below : ∀ depth ∈ moments.filterMap Moment.depth?, 0 < depth) :
    limits.Fares p.steps (moments.filterMap Moment.depth?)
      (limits.pass moments p).1 (limits.pass moments p).2.steps := by
  induction moments generalizing p with
  | nil => exact .allowed trivial
  | cons moment moments ih =>
    cases isNode : moment.depth? with
    | some depth =>
      obtain rfl := Moment.depth?_eq_some_iff.mp isNode
      rw [List.filterMap_cons_some isNode, List.forall_mem_cons] at below
      have entering : p.entering depth = p := if_neg (Int.ne_of_gt below.1)
      rw [List.filterMap_cons_some isNode, pass_node, entering]
      cases breach : limits.breach? depth p.steps with
      | some fault => exact .here breach
      | none => exact .cons breach (ih (p := p.step) below.2)
    | none =>
      rw [List.filterMap_cons_none isNode] at below ⊢
      obtain ⟨q, steps, same⟩ := limits.pass_other isNode moments p
      rw [same, ← steps]
      exact ih below

/-- At the root, the count of steps starts again. -/
theorem fares_pass_root {limits : Limits} {later : List Moment} {p : Progress}
    (below : ∀ depth ∈ later.filterMap Moment.depth?, 0 < depth) :
    limits.Fares 0 (0 :: later.filterMap Moment.depth?)
      (limits.pass (.node 0 :: later) p).1 (limits.pass (.node 0 :: later) p).2.steps := by
  rw [pass_node, show p.entering 0 = { p with steps := 0 } from rfl]
  cases breach : limits.breach? 0 0 with
  | some fault => exact .here breach
  | none => exact .cons breach (fares_pass (p := { p with steps := 1 }) below)

/-- When the steps run out, all that the limit allows have been taken. -/
theorem Fares.of_stepsExceeded {limits : Limits} {depths : List Int} {spent : Nat}
    {steps m : Int} (h : limits.Fares 0 depths (some (.stepsExceeded steps m)) spent) :
    limits.steps = some m ∧ steps = spent + 1 ∧ (spent : Int) = max m 0 := by
  cases h with
  | stopped split allows breach =>
    rename_i before after depth
    rcases breach?_eq_some breach with ⟨d, -, -, other⟩ | ⟨m', isLimit, reached, same⟩
    · cases other
    · injection same with sameSteps sameLimit
      subst sameLimit
      refine ⟨isLimit, by omega, ?_⟩
      cases before with
      | nil =>
        simp only [List.length_nil] at reached ⊢
        omega
      | cons first before =>
        have := (allows_iff.mp allows).2 (List.cons_ne_nil _ _) m isLimit
        omega

/-- A limit on the depth is breached at the level next to it, or at the root if it is negative. -/
theorem Fares.of_depthExceeded {limits : Limits} {later : List Int} {spent : Nat} {depth d : Int}
    (descends : Descends 1 later)
    (h : limits.Fares 0 (0 :: later) (some (.depthExceeded depth d)) spent) :
    limits.depth = some d ∧ depth = max d (-1) + 1 := by
  have gradual : (0 :: later).IsChain fun depth next => next ≤ depth + 1 := descends.cons.gradual
  cases h with
  | stopped split allows breach =>
    rename_i before after depth'
    rcases breach?_eq_some breach with ⟨d', isLimit, tooDeep, same⟩ | ⟨m, -, -, other⟩
    · injection same with sameDepth sameLimit
      subst sameDepth sameLimit
      refine ⟨isLimit, ?_⟩
      cases before with
      | nil =>
        obtain ⟨rfl, -⟩ := List.cons_eq_cons.mp split
        omega
      | cons first before =>
        obtain ⟨rfl, -⟩ := List.cons_eq_cons.mp split
        rw [split] at gradual
        -- The node before the one that is too deep is allowed and at most one level above it.
        obtain ⟨last, isLast⟩ : ∃ last, (0 :: before).getLast? = some last :=
          ⟨_, List.getLast?_eq_some_getLast (List.cons_ne_nil _ _)⟩
        have next := (List.isChain_append.mp gradual).2.2 last isLast depth rfl
        have shallow := (allows_iff.mp allows).1 d isLimit
        have root := shallow 0 List.mem_cons_self
        have above := shallow last (List.mem_of_getLast? isLast)
        omega
    · cases other

/-- Limits never allow more steps than they say. -/
theorem Fares.spent_le {limits : Limits} {depths : List Int} {stop : Option Fault} {spent : Nat}
    (h : limits.Fares 0 depths stop spent) {m : Int} (isLimit : m ∈ limits.steps)
    (notNegative : 0 ≤ m) : (spent : Int) ≤ m := by
  cases h with
  | allowed allows =>
    cases depths with
    | nil => simpa using notNegative
    | cons first depths => exact (allows_iff.mp allows).2 (List.cons_ne_nil _ _) m isLimit
  | stopped split allows breach =>
    rename_i before after depth fault
    cases before with
    | nil => simpa using notNegative
    | cons first before => exact (allows_iff.mp allows).2 (List.cons_ne_nil _ _) m isLimit

/-- Limits that stop somewhere do not allow everything. -/
theorem Fares.not_allows {limits : Limits} {depths : List Int} {steps spent : Nat}
    {fault : Fault} (h : limits.Fares steps depths (some fault) spent) :
    ¬ limits.Allows steps depths := by
  cases h with
  | stopped split allows breach =>
    rename_i before after depth
    rw [split]
    clear split allows
    induction before generalizing steps with
    | nil =>
      intro allowed
      simp [allowed.1] at breach
    | cons first before ih =>
      intro allowed
      apply ih _ allowed.2
      rwa [List.length_cons, Nat.add_comm before.length, ← Nat.add_assoc] at breach

/-- What limits stop at is one of them. -/
theorem Fares.ownFamily_eq {limits : Limits} {depths : List Int} {steps spent : Nat}
    {fault : Fault} (h : limits.Fares steps depths (some fault) spent) :
    fault.ownFamily = .limit := by
  cases h with
  | stopped split allows breach => exact ownFamily_of_breach? breach

/-- The faults of limits can be worded when no limit, and no number one greater than a limit, is
too long to be written. -/
def CanBeWorded (limits : Limits) : Prop :=
  ∀ n, n ∈ limits.depth ∨ n ∈ limits.steps → Text.IsWritable n ∧ Text.IsWritable (n + 1)

/-- What limits stop at is answered as one of them when it can be worded. -/
theorem Fares.family_eq {limits : Limits} {later : List Int} {spent : Nat} {fault : Fault}
    (h : limits.Fares 0 (0 :: later) (some fault) spent) (descends : Descends 1 later)
    (writable : limits.CanBeWorded) : fault.family = .limit := by
  have small (n : Int) (h : n.natAbs ≤ 1) : Text.IsWritable n :=
    Text.isWritable_of_natAbs_lt (Nat.lt_of_le_of_lt h (by decide))
  have worded : fault.CanBeWorded := by
    have stop := h
    cases h with
    | stopped split allows breach =>
      rcases breach?_eq_some breach with ⟨d, -, -, rfl⟩ | ⟨m, -, -, rfl⟩
      · obtain ⟨isLimit, next⟩ := stop.of_depthExceeded descends
        have := writable d (.inl isLimit)
        refine List.forall_mem_cons.mpr ⟨?_, List.forall_mem_singleton.mpr this.1⟩
        rcases Int.lt_or_le d 0 with negative | notNegative
        · exact small _ (by omega)
        · rw [next, Int.max_eq_left (by omega)]
          exact this.2
      · obtain ⟨isLimit, -, all⟩ := stop.of_stepsExceeded
        have := writable m (.inr isLimit)
        refine List.forall_mem_cons.mpr ⟨?_, List.forall_mem_singleton.mpr this.1⟩
        rcases Int.lt_or_le m 0 with negative | notNegative
        · exact small _ (by omega)
        · rw [all, Int.max_eq_left notNegative]
          exact this.2
  rw [Fault.family, if_pos worded]
  exact h.ownFamily_eq

end Limits

/-! ### Evaluations with and without limits -/

/-- How an evaluation under limits compares with the same evaluation without, given their course:
its nodes are what the free evaluation evaluates, and their depths how deep it gets.

An answer's family is the kind of its fault; one whose wording would hold an integer too long to
be written is answered as a fault of that numeral, which the two fields on families rule out. -/
structure Transparent (limits : Limits) (course : Course Tree) (free limited : Evaluation) :
    Prop where
  free_outcome : free.outcome = course.outcome
  free_steps : free.steps = course.steps
  succeeds_iff : ∀ value, limited.outcome = .ok value ↔
    free.outcome = .ok value ∧ (∀ m ∈ limits.steps, (course.steps : Int) ≤ m) ∧
      ∀ d ∈ limits.depth, course.deepest ≤ d
  steps_of_success : ∀ value, limited.outcome = .ok value → limited.steps = course.steps
  same_fault : ∀ fault, limited.outcome = .error fault → fault.ownFamily ≠ .limit →
    free.outcome = .error fault
  other_fault : limited.outcome ≠ free.outcome →
    ∃ fault, limited.outcome = .error fault ∧ fault.ownFamily = .limit
  same_family : limits.CanBeWorded → ∀ fault, limited.outcome = .error fault →
    fault.family ≠ .limit → free.outcome = .error fault
  other_family : limits.CanBeWorded → limited.outcome ≠ free.outcome →
    ∃ fault, limited.outcome = .error fault ∧ fault.family = .limit
  steps_le : ∀ m ∈ limits.steps, 0 ≤ m → (limited.steps : Int) ≤ m
  stepsExceeded : ∀ steps m, limited.outcome = .error (.stepsExceeded steps m) →
    limits.steps = some m ∧ steps = limited.steps + 1 ∧ (limited.steps : Int) = max m 0
  depthExceeded : ∀ depth d, limited.outcome = .error (.depthExceeded depth d) →
    limits.depth = some d ∧ depth = max d (-1) + 1

namespace Course.StartsAt

variable {course : Course Tree} {limits : Limits} {p : Progress}

/-- The greatest depth is that of some node, and no node is deeper. -/
theorem deepest_le_iff (starts : course.StartsAt 0) {d : Int} :
    course.deepest ≤ d ↔ ∀ depth ∈ course.depths, depth ≤ d := by
  obtain ⟨rest, rfl, -⟩ := starts
  exact List.max?_le_iff rfl

theorem allows_iff (starts : course.StartsAt 0) :
    limits.Allows 0 course.depths ↔
      (∀ m ∈ limits.steps, (course.steps : Int) ≤ m) ∧
        ∀ d ∈ limits.depth, course.deepest ≤ d := by
  have root : course.depths ≠ [] := by
    obtain ⟨rest, rfl, -⟩ := starts
    exact List.cons_ne_nil _ _
  rw [Limits.allows_iff, and_comm]
  apply and_congr
  · rw [forall_prop_of_true root, Nat.zero_add, steps]
  · exact forall₂_congr fun d _ => starts.deepest_le_iff.symm

/-- How limits fare along a course from the root. -/
theorem fares (starts : course.StartsAt 0) {stop : Option Fault} {spent : Nat}
    {log : List Event} (h : limits.pass course.moments p = (stop, ⟨spent, log⟩)) :
    limits.Fares 0 course.depths stop spent := by
  obtain ⟨rest, rfl, below⟩ := starts
  have root : limits.Fares 0 (0 :: rest.depths) (limits.pass (.node 0 :: rest.moments) p).1
      (limits.pass (.node 0 :: rest.moments) p).2.steps :=
    Limits.fares_pass_root fun depth mem => Int.lt_of_add_one_le (below.least depth mem)
  rwa [show limits.pass (.node 0 :: rest.moments) p = (stop, ⟨spent, log⟩) from h] at root

/-- When limits allow all nodes, each takes its step and the course comes to its end. -/
theorem follow_of_allows (starts : course.StartsAt 0) (h : limits.Allows 0 course.depths) :
    ∃ log, limits.follow course p = (course.outcome, ⟨course.steps, log⟩) := by
  rcases passed : limits.pass course.moments p with ⟨_ | fault, spent, log⟩
  · refine ⟨log, ?_⟩
    have all : spent = course.steps := by
      cases starts.fares passed with
      | allowed => exact Nat.zero_add _
    rw [Limits.follow, passed, all]
  · exact absurd h (starts.fares passed).not_allows

/-- When limits do not allow all nodes, they stop at one. -/
theorem follow_of_not_allows (starts : course.StartsAt 0) (h : ¬ limits.Allows 0 course.depths) :
    ∃ fault spent log, limits.follow course p = (.error fault, ⟨spent, log⟩) ∧
      limits.Fares 0 course.depths (some fault) spent := by
  rcases passed : limits.pass course.moments p with ⟨_ | fault, spent, log⟩
  · cases starts.fares passed with
    | allowed allows => exact absurd allows h
  · exact ⟨fault, spent, log, by rw [Limits.follow, passed], starts.fares passed⟩

/-- Without limits, a course from the root comes to its end. -/
theorem follow_unlimited (starts : course.StartsAt 0) :
    ∃ log, Limits.unlimited.follow course p = (course.outcome, ⟨course.steps, log⟩) := by
  apply starts.follow_of_allows
  rw [starts.allows_iff]
  constructor
  · intro m isLimit
    cases isLimit
  · intro d isLimit
    cases isLimit

/-- Limits that allow all nodes of a course change nothing about it. -/
theorem transparent_of_allows (starts : course.StartsAt 0)
    (causes : ∀ fault, course.outcome = .error fault → fault.ownFamily ≠ .limit)
    (fits : limits.Allows 0 course.depths) :
    Transparent limits course (.ofOutcome (Limits.unlimited.follow course p))
      (.ofOutcome (limits.follow course p)) := by
  obtain ⟨freeLog, free⟩ : ∃ log, Limits.unlimited.follow course p = _ := starts.follow_unlimited
  obtain ⟨log, limited⟩ : ∃ log, limits.follow course p = _ := starts.follow_of_allows fits
  have fares : limits.Fares 0 course.depths none course.steps :=
    (Nat.zero_add course.steps) ▸ .allowed fits
  rw [free, limited]
  constructor
  case free_outcome => rfl
  case free_steps => rfl
  case succeeds_iff =>
    intro value
    constructor
    · intro success
      exact ⟨success, starts.allows_iff.mp fits⟩
    · intro success
      exact success.1
  case steps_of_success =>
    intro value _
    rfl
  case same_fault =>
    intro fault failure _
    exact failure
  case other_fault =>
    intro differ
    exact absurd rfl differ
  case same_family =>
    intro _ fault failure _
    exact failure
  case other_family =>
    intro _ differ
    exact absurd rfl differ
  case steps_le =>
    intro m isLimit notNegative
    exact fares.spent_le isLimit notNegative
  case stepsExceeded =>
    intro steps m failure
    exact absurd rfl (causes _ failure)
  case depthExceeded =>
    intro depth d failure
    exact absurd rfl (causes _ failure)

/-- Limits that do not allow all nodes of a course stop it with a fault of theirs. -/
theorem transparent_of_not_allows (starts : course.StartsAt 0)
    (exceeds : ¬ limits.Allows 0 course.depths) :
    Transparent limits course (.ofOutcome (Limits.unlimited.follow course p))
      (.ofOutcome (limits.follow course p)) := by
  obtain ⟨freeLog, free⟩ : ∃ log, Limits.unlimited.follow course p = _ := starts.follow_unlimited
  obtain ⟨fault, spent, log, limited, fares⟩ :
      ∃ fault spent log, limits.follow course p = (.error fault, ⟨spent, log⟩) ∧ _ :=
    starts.follow_of_not_allows exceeds
  have ⟨rest, isRoot, below⟩ := starts
  have rooted : course.depths = 0 :: rest.depths := by rw [isRoot, Course.depths_node]
  have ownFamily := fares.ownFamily_eq
  have family (writable : limits.CanBeWorded) : fault.family = .limit :=
    (rooted ▸ fares).family_eq below writable
  rw [free, limited]
  constructor
  case free_outcome => rfl
  case free_steps => rfl
  case succeeds_iff =>
    intro value
    constructor
    · intro success
      cases success
    · intro success
      exact absurd (starts.allows_iff.mpr success.2) exceeds
  case steps_of_success =>
    intro value success
    cases success
  case same_fault =>
    intro fault' failure notLimit
    cases failure
    exact absurd ownFamily notLimit
  case other_fault =>
    intro _
    exact ⟨fault, rfl, ownFamily⟩
  case same_family =>
    intro writable fault' failure notLimit
    cases failure
    exact absurd (family writable) notLimit
  case other_family =>
    intro writable _
    exact ⟨fault, rfl, family writable⟩
  case steps_le =>
    intro m isLimit notNegative
    exact fares.spent_le isLimit notNegative
  case stepsExceeded =>
    intro steps m failure
    cases failure
    exact fares.of_stepsExceeded
  case depthExceeded =>
    intro depth d failure
    cases failure
    exact (rooted ▸ fares).of_depthExceeded below

/-- Limits are transparent along a course from the root that does not itself end with a fault of
theirs. -/
theorem transparent (starts : course.StartsAt 0)
    (causes : ∀ fault, course.outcome = .error fault → fault.ownFamily ≠ .limit) :
    Transparent limits course (.ofOutcome (Limits.unlimited.follow course p))
      (.ofOutcome (limits.follow course p)) := by
  by_cases fits : limits.Allows 0 course.depths
  · exact starts.transparent_of_allows causes fits
  · exact starts.transparent_of_not_allows fits

end Course.StartsAt

/-- **Limits are transparent**, for the evaluation of a tree from depth 0 and for the run of a
program, whatever the evaluator did before. -/
theorem Evaluator.limits_transparent (evaluator : Evaluator) (entry : Entry) (tree : Tree) :
    Transparent evaluator.limits (entry.course tree)
      ({ evaluator with limits := .unlimited }.enter entry tree) (evaluator.enter entry tree) := by
  rw [enter_eq_follow, enter_eq_follow]
  exact (entry.startsAt_course tree).transparent fun fault failure =>
    (Tree.cause_of_course failure).ownFamily_ne

/-- A limit on the depth below 0 stops every tree at its root. -/
theorem Evaluator.outcome_enter_of_neg {evaluator : Evaluator} {d : Int}
    (isLimit : evaluator.limits.depth = some d) (negative : d < 0) (entry : Entry) (tree : Tree) :
    (evaluator.enter entry tree).outcome = .error (.depthExceeded 0 d) := by
  obtain ⟨rest, isRoot, -⟩ := entry.startsAt_course tree
  have breach (steps : Nat) : evaluator.limits.breach? 0 steps = some (.depthExceeded 0 d) := by
    rw [Limits.breach?, isLimit, Option.filter_some, if_pos (decide_eq_true negative)]
  rw [enter_eq_follow, isRoot, Limits.follow_node, breach]
  rfl

/-- Limits that cannot be worded are the exception: a negative limit on the depth with one digit too
many stops the list `(1)` with a fault of its numeral and not of the limit, although nothing stops
the list without limits. -/
theorem Evaluator.limits_transparent_unwritable :
    let d : Int := -(Nat.pow 10 Text.longestNumeral : Nat)
    let tree : Tree := .list [.number 1]
    (∃ fault, ((Evaluator.mk ⟨some d, none⟩ 0).enter .form tree).outcome = .error fault ∧
      ((Evaluator.mk ⟨some d, none⟩ 0).enter .program tree).outcome = .error fault ∧
      fault.family = .numeral ∧ fault.message = Text.unwritableMessage) ∧
    ((Evaluator.mk .unlimited 0).enter .form tree).outcome = .ok tree ∧
    ((Evaluator.mk .unlimited 0).enter .program tree).outcome = .ok tree := by
  intro d tree
  have power (digits : Nat) : 0 < Nat.pow 10 digits := Nat.pow_pos (by decide)
  have negative : d < 0 := Int.neg_neg_of_pos (Int.natCast_pos.mpr (power _))
  have unwritable : ¬ Text.IsWritable d := by
    rw [Text.IsWritable, Int.natAbs_neg, Int.natAbs_natCast]
    exact Nat.lt_irrefl _
  have unworded : ¬ (Fault.depthExceeded 0 d).CanBeWorded := fun worded =>
    unwritable (worded d (List.mem_cons_of_mem _ List.mem_cons_self))
  exact ⟨⟨.depthExceeded 0 d, outcome_enter_of_neg rfl negative .form tree,
    outcome_enter_of_neg rfl negative .program tree, if_neg unworded, if_neg unworded⟩, rfl, rfl⟩

end PlusLisp
