import PlusLisp.Text.Numeral
import Mathlib.Data.List.Induction

/-!
Integers that are read can be written. A numeral has no more digits than may be written, so that the
integer it stands for has no more either.

Main statement: `isWritable_of_readInteger`.
-/

namespace PlusLisp.Text

theorem decimalValue?_lt {c : Char} {value : Nat} (h : decimalValue? c = some value) :
    value < 10 := by
  obtain ⟨first, hfirst, rfl⟩ := Option.map_eq_some_iff.mp h
  have hfound := List.find?_some hfirst
  rw [Bool.and_eq_true, decide_eq_true_eq, decide_eq_true_eq] at hfound
  omega

/-- The values of digits are less than ten. -/
theorem digitValues?_lt {text : List Char} {values : List Nat}
    (h : digitValues? text = some values) : ∀ value ∈ values, value < 10 := by
  fun_induction digitValues? text generalizing values with
  | case1 => cases h
  | case2 c =>
    obtain ⟨value, hvalue, rfl⟩ := Option.map_eq_some_iff.mp h
    exact List.forall_mem_singleton.mpr (decimalValue?_lt hvalue)
  | case3 c d rest ih =>
    obtain ⟨value, hvalue, h⟩ := Option.bind_eq_some_iff.mp h
    obtain ⟨later, hlater, h⟩ := Option.bind_eq_some_iff.mp h
    cases h
    exact List.forall_mem_cons.mpr ⟨decimalValue?_lt hvalue, ih hlater⟩
  | case4 c d rest hother ih =>
    obtain ⟨value, hvalue, h⟩ := Option.bind_eq_some_iff.mp h
    obtain ⟨later, hlater, h⟩ := Option.bind_eq_some_iff.mp h
    cases h
    exact List.forall_mem_cons.mpr ⟨decimalValue?_lt hvalue, ih hlater⟩

/-- Digits stand for less than a power of ten with as many zeros. -/
theorem valueOf_lt {digits : List Nat} (h : ∀ digit ∈ digits, digit < 10) :
    valueOf digits < Nat.pow 10 digits.length := by
  induction digits using List.reverseRecOn with
  | nil => exact Nat.one_pos
  | append_singleton digits digit ih =>
    have hdigit := h digit (List.mem_append_right _ List.mem_cons_self)
    have hdigits := ih fun digit hmem => h digit (List.mem_append_left _ hmem)
    rw [valueOf] at hdigits ⊢
    have hpower : Nat.pow 10 (digits.length + 1) = Nat.pow 10 digits.length * 10 := rfl
    rw [List.foldl_append, List.length_append, List.length_singleton, hpower]
    simp only [List.foldl_cons, List.foldl_nil]
    omega

theorem natAbs_splitSign (text : List Char) : (splitSign text).1.natAbs = 1 := by
  unfold splitSign
  split <;> rfl

/-- **What is read can be written.** -/
theorem isWritable_of_readInteger {text : String} {n : Int} (h : readInteger text = .ok n) :
    IsWritable n := by
  unfold readInteger at h
  dsimp only at h
  split at h
  · cases h
  · next values hvalues =>
    split at h
    · cases h
    · next hfew =>
      split at h
      · cases h
      · cases h
        -- For any exponent, so that the power of the greatest length is not computed.
        have hpow (many : Nat) (hmany : values.length ≤ many) : valueOf values < Nat.pow 10 many :=
          Nat.lt_of_lt_of_le (valueOf_lt (digitValues?_lt hvalues))
            (Nat.pow_le_pow_right (n := 10) (by decide) hmany)
        rw [IsWritable, Int.natAbs_mul, natAbs_splitSign, Nat.one_mul, Int.natAbs_natCast]
        exact hpow longestNumeral (Nat.le_of_not_lt hfew)

end PlusLisp.Text
