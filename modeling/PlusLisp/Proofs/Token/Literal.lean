import Mathlib.Data.Nat.Digits.Defs
import PlusLisp.Token.Scanner

/-!
Literals: the reading of a run of digits goes by the value of the run alone.

A reading drops leading zeros, and it refuses the longest runs by their length. Neither changes
the verdict: `literal_eq` decides by the value of the run as it stands.
-/

namespace PlusLisp.Token

/-- The value of a run of digits, most significant first. -/
def valueOf (digits : List Char) : Nat := Nat.ofDigitChars 10 digits 0

/-! ### Length and value -/

theorem valueOf_cons (c : Char) (digits : List Char) :
    valueOf (c :: digits) = 10 ^ digits.length * (c.toNat - '0'.toNat) + valueOf digits := by
  rw [valueOf, Nat.ofDigitChars_cons, Nat.ofDigitChars_eq_ofDigitChars_zero]
  simp only [Nat.mul_zero, Nat.zero_add, valueOf]

/-- The value of a run of digits is that of its digits by their places. -/
theorem valueOf_eq_ofDigits (digits : List Char) :
    valueOf digits = Nat.ofDigits 10 (digits.reverse.map fun c => c.toNat - '0'.toNat) := by
  induction digits with
  | nil => rfl
  | cons c digits ih =>
    rw [valueOf_cons, ih, List.reverse_cons, List.map_append, Nat.ofDigits_append, List.length_map,
      List.length_reverse, List.map_singleton, Nat.ofDigits_singleton, Nat.add_comm]

theorem valueOf_dropWhile_zero (digits : List Char) :
    valueOf (digits.dropWhile (· = '0')) = valueOf digits := by
  induction digits with
  | nil => rfl
  | cons c digits ih =>
    by_cases hzero : c = '0'
    · subst hzero
      rw [List.dropWhile_cons_of_pos (by simp), ih, valueOf_cons]
      simp
    · rw [List.dropWhile_cons_of_neg (by simpa using hzero)]

/-- A run of digits with a leading digit other than zero is worth a power of ten. -/
theorem pow_le_valueOf_cons {c : Char} (hdigit : c.isDigit = true) (hzero : c ≠ '0')
    (digits : List Char) : 10 ^ digits.length ≤ valueOf (c :: digits) := by
  have hpos : 1 ≤ c.toNat - '0'.toNat := by
    have hne : c.toNat ≠ '0'.toNat := fun h => hzero (Char.toNat_inj.mp h)
    simp only [Char.isDigit, Bool.and_eq_true, decide_eq_true_eq, ge_iff_le] at hdigit
    have hle : '0'.toNat ≤ c.toNat := hdigit.1
    omega
  calc 10 ^ digits.length
      = 10 ^ digits.length * 1 := (Nat.mul_one _).symm
    _ ≤ 10 ^ digits.length * (c.toNat - '0'.toNat) := Nat.mul_le_mul_left _ hpos
    _ ≤ valueOf (c :: digits) := by rw [valueOf_cons]; exact Nat.le_add_right _ _

/-- A run with more significant digits than any number in range has a greater value than it. -/
theorem highest_lt_of_longestLiteral_lt {digits : List Char}
    (hdigits : ∀ c ∈ digits, c.isDigit = true)
    (hlong : longestLiteral < (digits.dropWhile (· = '0')).length) :
    Signed64.highest < valueOf digits := by
  rw [← valueOf_dropWhile_zero]
  cases hsignificant : digits.dropWhile (· = '0') with
  | nil => simp [hsignificant] at hlong
  | cons c rest =>
    have hc : c ∈ digits := by
      have : c ∈ digits.dropWhile (· = '0') := by rw [hsignificant]; exact List.mem_cons_self
      exact (List.dropWhile_sublist _).mem this
    have hzero : c ≠ '0' := by
      have hhead := List.head?_dropWhile_not (fun c : Char => decide (c = '0')) digits
      rw [hsignificant] at hhead
      simpa using hhead
    have hlength : 19 ≤ rest.length := by
      rw [hsignificant] at hlong
      exact Nat.le_of_lt_succ hlong
    have hpow : 10 ^ 19 ≤ valueOf (c :: rest) :=
      Nat.le_trans (Nat.pow_le_pow_right (by decide) hlength)
        (pow_le_valueOf_cons (hdigits c hc) hzero rest)
    have hhighest : Signed64.highest < (10 ^ 19 : Nat) := by decide
    omega

/-! ### The reading of a run -/

/-- The reading of a run of digits: its value where that is in range, else a fault that shows the
run as it stands. -/
theorem literal_eq {digits : List Char} (hdigits : ∀ c ∈ digits, c.isDigit = true) :
    literal digits =
      if Signed64.highest < valueOf digits then
        .error (.literalOutOfRange (String.ofList digits))
      else .ok (.number (valueOf digits)) := by
  have hvalue : Nat.ofDigitChars 10 (digits.dropWhile (· = '0')) 0 = valueOf digits :=
    valueOf_dropWhile_zero digits
  simp only [literal, hvalue]
  by_cases hrange : Signed64.highest < valueOf digits
  · rw [if_pos hrange, if_pos (Or.inr hrange)]
  · have hshort : ¬longestLiteral < (digits.dropWhile (· = '0')).length :=
      fun hlong => hrange (highest_lt_of_longestLiteral_lt hdigits hlong)
    rw [if_neg hrange, if_neg]
    rintro (hlong | hlarge)
    · exact hshort hlong
    · exact hrange hlarge

end PlusLisp.Token
