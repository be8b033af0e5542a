import PlusLisp.Fault

/-!
Limits on what an evaluation may use.
-/

namespace PlusLisp

/-- The limits on an evaluation: the greatest depth and the number of steps. An absent limit
allows everything; a negative one allows nothing. -/
structure Limits where
  depth : Option Int := none
  steps : Option Int := none
  deriving DecidableEq, Repr

namespace Limits

/-- No limits. -/
def unlimited : Limits := {}

/-- The limit that keeps a node at the given depth from being evaluated after the given number
of steps. Depth comes first. -/
def breach? (limits : Limits) (depth : Int) (steps : Nat) : Option Fault :=
  match limits.depth.filter (· < depth), limits.steps.filter (· ≤ (steps : Int)) with
  | some limit, _ => some (.depthExceeded depth limit)
  | none, some limit => some (.stepsExceeded (steps + 1) limit)
  | none, none => none

end Limits

end PlusLisp
