import Mathlib.Algebra.Group.Nat.Defs
import Mathlib.Tactic.SplitIfs
import PlusLisp.Proofs.Text.Delimited

/-!
Quoted text can be read back, whatever characters count as printable. Behind a backslash, the next
character says how many hexadecimal digits follow, if any, and these give the code point
(`hexValue_hexDigits`). So one character can be read at a time (`unquoteChar_quoteChar`), and no
character is written with the quotation mark in front.

Main statement: `eq_of_quote_append`.
-/

namespace PlusLisp.Text

/-! ### Hexadecimal numbers -/

/-- The value of a hexadecimal digit in lower case. -/
def hexDigitValue (c : Char) : Nat := if c.isDigit then c.toNat - 48 else c.toNat - 87

/-- The value of hexadecimal digits, most significant first. -/
def hexValue (digits : List Char) : Nat :=
  digits.foldl (fun value c => 16 * value + hexDigitValue c) 0

theorem hexDigitValue_digitChar : ∀ n < 16, hexDigitValue (Nat.digitChar n) = n := by decide

theorem hexValue_toDigits (n : Nat) : hexValue (Nat.toDigits 16 n) = n := by
  induction n using Nat.strongRecOn with
  | ind n ih =>
    rcases Nat.lt_or_ge n 16 with hsmall | hlarge
    · rw [Nat.toDigits_of_lt_base hsmall]
      exact (Nat.zero_add _).trans (hexDigitValue_digitChar n hsmall)
    · have hhead := ih (n / 16) (by omega)
      have hlast := hexDigitValue_digitChar (n % 16) (by omega)
      rw [hexValue] at hhead
      rw [Nat.toDigits_of_base_le (by decide) hlarge, hexValue, List.foldl_append, hhead,
        List.foldl_cons, List.foldl_nil, hlast]
      exact Nat.div_add_mod n 16

/-- Zeros in front do not change the value. -/
theorem hexValue_hexDigits (width n : Nat) : hexValue (hexDigits width n) = n := by
  have hzeros (count : Nat) (digits : List Char) :
      hexValue (List.replicate count '0' ++ digits) = hexValue digits := by
    induction count with
    | zero => rfl
    | succ count ih => exact ih
  rw [hexDigits, List.leftpad, hzeros, hexValue_toDigits]

theorem length_hexDigits {width n : Nat} (hwidth : 0 < width) (hn : n < 16 ^ width) :
    (hexDigits width n).length = width := by
  rw [hexDigits, List.length_leftpad]
  exact Nat.max_eq_left ((Nat.length_toDigits_le_iff (by decide) hwidth).mpr hn)

/-! ### Characters -/

/-- Read the character whose code point is given by a number of hexadecimal digits. -/
def readCode (width : Nat) (text : List Char) : Option (Char × List Char) :=
  some (Char.ofNat (hexValue (text.take width)), text.drop width)

/-- Read one character inside quotation marks. -/
def unquoteChar : List Char → Option (Char × List Char)
  | '\\' :: 't' :: rest => some ('\t', rest)
  | '\\' :: 'n' :: rest => some ('\n', rest)
  | '\\' :: 'r' :: rest => some ('\r', rest)
  | '\\' :: 'x' :: rest => readCode 2 rest
  | '\\' :: 'u' :: rest => readCode 4 rest
  | '\\' :: 'U' :: rest => readCode 8 rest
  | '\\' :: c :: rest => some (c, rest)
  | c :: rest => some (c, rest)
  | [] => none

section

variable {printable : Char → Bool} {mark c : Char}

theorem readCode_hexDigits {width : Nat} (hwidth : 0 < width) (hc : c.toNat < 16 ^ width)
    (rest : List Char) : readCode width (hexDigits width c.toNat ++ rest) = some (c, rest) := by
  have hlength := length_hexDigits hwidth hc
  rw [readCode, List.take_left' hlength, List.drop_left' hlength, hexValue_hexDigits,
    Char.ofNat_toNat]

theorem unquoteChar_escapeCode (c : Char) (rest : List Char) :
    unquoteChar (escapeCode c ++ rest) = some (c, rest) := by
  have hc : c.toNat < 16 ^ 8 := c.val.toNat_lt
  rw [escapeCode]
  split
  · exact readCode_hexDigits (by decide) ‹_› rest
  · split
    · exact readCode_hexDigits (by decide) ‹_› rest
    · exact readCode_hexDigits (by decide) hc rest

theorem unquoteChar_cons (h : c ≠ '\\') (rest : List Char) :
    unquoteChar (c :: rest) = some (c, rest) := by
  unfold unquoteChar
  split <;> simp_all

/-- A character is read back as it was written. -/
theorem unquoteChar_quoteChar (hmark : mark = '\'' ∨ mark = '"') (rest : List Char) :
    unquoteChar (quoteChar printable mark c ++ rest) = some (c, rest) := by
  by_cases hslash : c = '\\' ∨ c = mark
  · rw [quoteChar, if_pos hslash]
    obtain rfl | rfl := hslash
    · rfl
    · obtain rfl | rfl := hmark <;> rfl
  · rw [quoteChar, if_neg hslash]
    obtain ⟨hslash, -⟩ := not_or.mp hslash
    split_ifs with htab hfeed hreturn hprintable
    · rw [htab]
      rfl
    · rw [hfeed]
      rfl
    · rw [hreturn]
      rfl
    · exact unquoteChar_cons hslash rest
    · exact unquoteChar_escapeCode c rest

/-- Characters are delimited inside quotation marks. -/
theorem isDelimited_quoteChar (hmark : mark = '\'' ∨ mark = '"') :
    IsDelimited (fun _ => True) (quoteChar printable mark) c := by
  intro d _ rest rest' h
  have hread : some (c, rest) = some (d, rest') := by
    rw [← unquoteChar_quoteChar hmark rest, ← unquoteChar_quoteChar hmark rest', h]
  exact Prod.mk.inj (Option.some.inj hread)

/-- No character begins with the quotation mark. -/
theorem head?_quoteChar_ne (hmark : mark = '\'' ∨ mark = '"') (c : Char) (rest : List Char) :
    (quoteChar printable mark c ++ rest).head? ≠ some mark := by
  have hslash : '\\' ≠ mark := by
    obtain rfl | rfl := hmark <;> decide
  rw [quoteChar]
  split_ifs with hc htab hfeed hreturn hprintable
  · simpa using hslash
  · simpa using hslash
  · simpa using hslash
  · simpa using hslash
  · simpa using (not_or.mp hc).2
  · rw [escapeCode]
    split_ifs <;> simpa using hslash

/-! ### Texts -/

theorem quotationMark_eq (text : List Char) :
    quotationMark text = '\'' ∨ quotationMark text = '"' := by
  rw [quotationMark]
  split
  · exact .inr rfl
  · exact .inl rfl

theorem toList_quote_append (printable : Char → Bool) (text : String) (rest : List Char) :
    (quote printable text).toList ++ rest =
      quotationMark text.toList ::
        (text.toList.flatMap (quoteChar printable (quotationMark text.toList)) ++
          quotationMark text.toList :: rest) := by
  rw [quote, String.toList_ofList, List.append_assoc, List.cons_append, List.singleton_append]

/-- **Quoted texts are delimited.** The quotation mark comes first and is the same in both texts,
and up to its next appearance the characters are told apart one by one. -/
theorem eq_of_quote_append {text text' : String} {rest rest' : List Char}
    (h : (quote printable text).toList ++ rest = (quote printable text').toList ++ rest') :
    text = text' ∧ rest = rest' := by
  rw [toList_quote_append, toList_quote_append] at h
  obtain ⟨hmark, hchars⟩ := List.cons_eq_cons.mp h
  rw [← hmark] at hchars
  have hmarks := quotationMark_eq text.toList
  obtain ⟨htext, hrest⟩ := eq_of_flatMap_append (P := fun _ => True)
    (fun c _ => isDelimited_quoteChar hmarks) (fun _ _ => trivial) (fun _ _ => trivial)
    (fun c _ => head?_quoteChar_ne hmarks c) hchars
  exact ⟨String.toList_inj.mp htext, hrest⟩

end

end PlusLisp.Text
