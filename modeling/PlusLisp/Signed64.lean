/-!
The range of the numbers: the integers that fit a signed word of 64 bits.
-/

namespace PlusLisp.Signed64

/-- The least number. -/
def lowest : Int := -0x8000000000000000

/-- The greatest number. -/
def highest : Int := 0x7fffffffffffffff

/-- An integer is in range when it lies between the least and the greatest number. -/
def InRange (n : Int) : Prop := lowest ≤ n ∧ n ≤ highest

instance (n : Int) : Decidable (InRange n) := by unfold InRange; infer_instance

end PlusLisp.Signed64
