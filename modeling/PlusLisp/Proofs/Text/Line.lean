import Mathlib.Data.List.DropRight

/-!
Lines of output. In a text of lines each of them ends with a line feed, so that what is said on one
of them must not hold any.

Main statement: `lastLine_append`. What is said after complete lines is the last line.
-/

namespace PlusLisp.Text

variable {text other separator : String}

/-! ### Texts of one line -/

/-- Holds of the texts that fit on a line. -/
def FitsOnLine (text : String) : Prop := '\n' ∉ text.toList

instance (text : String) : Decidable (FitsOnLine text) := inferInstanceAs (Decidable (¬ _))

theorem FitsOnLine.append (h : FitsOnLine text) (h' : FitsOnLine other) :
    FitsOnLine (text ++ other) := by
  rw [FitsOnLine, String.toList_append, List.mem_append]
  exact not_or.mpr ⟨h, h'⟩

theorem FitsOnLine.intercalate (hseparator : FitsOnLine separator) {texts : List String}
    (h : ∀ text ∈ texts, FitsOnLine text) : FitsOnLine (separator.intercalate texts) := by
  induction texts with
  | nil => exact List.not_mem_nil
  | cons text texts ih =>
    rw [List.forall_mem_cons] at h
    cases texts with
    | nil =>
      rw [String.intercalate_singleton]
      exact h.1
    | cons next texts =>
      rw [String.intercalate_cons_cons]
      exact (h.1.append hseparator).append (ih h.2)

theorem fitsOnLine_of_isDigit (h : ∀ c ∈ text.toList, c.isDigit = true) : FitsOnLine text := by
  intro hmem
  have hdigit := h '\n' hmem
  contradiction

theorem notMem_natCast {c : Char} (hdigit : c.isDigit = false) (n : Nat) :
    c ∉ (toString n).toList := by
  intro hmem
  have hdigits : (toString n).toList = Nat.toDigits 10 n := Nat.toList_repr
  rw [hdigits] at hmem
  exact Bool.eq_false_iff.mp hdigit (Nat.isDigit_of_mem_toDigits (by decide) (by decide) hmem)

/-- An integer is written with digits and a sign. -/
theorem notMem_intCast {c : Char} (hdigit : c.isDigit = false) (hsign : c ≠ '-') (n : Int) :
    c ∉ (toString n).toList := by
  cases n with
  | ofNat n => exact notMem_natCast hdigit n
  | negSucc n =>
    have hwritten : toString (Int.negSucc n) = "-" ++ toString (n + 1) := rfl
    rw [hwritten, String.toList_append, List.mem_append]
    exact not_or.mpr ⟨List.not_mem_cons_of_ne_of_not_mem hsign List.not_mem_nil,
      notMem_natCast hdigit (n + 1)⟩

theorem fitsOnLine_natCast (n : Nat) : FitsOnLine (toString n) := notMem_natCast rfl n

theorem fitsOnLine_intCast (n : Int) : FitsOnLine (toString n) :=
  notMem_intCast rfl (by decide) n

/-! ### Texts of lines -/

/-- Holds of the texts of which every line is complete. -/
def EndsLine (text : String) : Prop := text = "" ∨ ∃ before, text = before ++ "\n"

/-- The last line of a text of which every line is complete. -/
def lastLine (text : String) : String :=
  String.ofList (text.toList.dropLast.rtakeWhile (· ≠ '\n'))

theorem EndsLine.rtakeWhile_eq_nil (h : EndsLine text) :
    text.toList.rtakeWhile (· ≠ '\n') = [] := by
  obtain rfl | ⟨before, rfl⟩ := h
  · rfl
  · rw [String.toList_append]
    exact List.rtakeWhile_concat_neg _ _ _ (by decide)

/-- A line after complete lines is the last one. -/
theorem lastLine_append (h : EndsLine text) (hline : FitsOnLine other) :
    lastLine (text ++ other ++ "\n") = other := by
  have hother : ∀ line : List Char, '\n' ∉ line →
      (text.toList ++ line).rtakeWhile (· ≠ '\n') = line := by
    intro line hline
    induction line using List.reverseRecOn with
    | nil => rw [List.append_nil, h.rtakeWhile_eq_nil]
    | append_singleton line c ih =>
      rw [List.mem_append, List.mem_singleton, not_or] at hline
      rw [← List.append_assoc, List.rtakeWhile_concat_pos _ _ _ (by simpa using Ne.symm hline.2),
        ih hline.1]
  have htext : (text ++ other ++ "\n").toList.dropLast = text.toList ++ other.toList := by
    rw [String.toList_append, String.toList_append]
    exact List.dropLast_concat
  rw [lastLine, htext, hother _ hline, String.ofList_toList]

theorem endsLine_join {lines : List String} (h : ∀ line ∈ lines, EndsLine line) :
    EndsLine (String.join lines) := by
  induction lines with
  | nil => exact .inl rfl
  | cons line lines ih =>
    rw [List.forall_mem_cons] at h
    rw [String.join_cons]
    obtain hrest | ⟨before, hrest⟩ := ih h.2
    · rw [hrest, String.append_empty]
      exact h.1
    · refine .inr ⟨line ++ before, ?_⟩
      rw [hrest, String.append_assoc]

end PlusLisp.Text
