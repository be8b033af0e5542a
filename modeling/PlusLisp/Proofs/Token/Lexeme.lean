import PlusLisp.Token.Scanner
import PlusLisp.Proofs.Token.Literal
import Mathlib.Data.List.TakeWhile

/-!
The lexical grammar, apart from any scanner: what the segments of a text are, where each ends,
and what it yields.

A text has exactly one split into segments (`exists_split`, `Split.unique`). The first character
of a segment decides its kind, and the characters after the segment decide that it ends there, so
that one segment is determined at a time.
-/

namespace PlusLisp.Token

/-! ### Classes of characters -/

theorem isDelimiter_eq_false_iff {c : Char} :
    isDelimiter c = false ↔ Text.isBlank c = false ∧ c ≠ '(' ∧ c ≠ ')' := by
  simp [isDelimiter, and_assoc]

/-- No digit ends a word. -/
theorem isDelimiter_of_isDigit {c : Char} (h : c.isDigit = true) : isDelimiter c = false := by
  simp only [Char.isDigit, Bool.and_eq_true, decide_eq_true_eq, ge_iff_le,
    UInt32.le_iff_toNat_le] at h
  obtain ⟨hlow, hhigh⟩ := h
  have hlow' : 48 ≤ c.toNat := hlow
  have hhigh' : c.toNat ≤ 57 := hhigh
  rw [isDelimiter_eq_false_iff]
  refine ⟨?_, ?_, ?_⟩
  · simp only [Text.isBlank, Bool.or_eq_false_iff, Bool.and_eq_false_iff, decide_eq_false_iff_not,
      beq_eq_false_iff_ne]
    omega
  · rintro rfl
    exact absurd hlow' (by decide)
  · rintro rfl
    exact absurd hlow' (by decide)

/-! ### Lexemes -/

/-- A segment of a text. The body of a comment is what stands between its semicolon and its line
feed, which the last comment of a text may lack. -/
inductive Lexeme where
  | blank (c : Char)
  | opening
  | closing
  | comment (body : List Char) (ended : Bool)
  | digits (run : List Char)
  | word (run : List Char)
  deriving DecidableEq

namespace Lexeme

/-- The characters of a lexeme. -/
def chars : Lexeme → List Char
  | blank c => [c]
  | opening => ['(']
  | closing => [')']
  | comment body ended => ';' :: body ++ (if ended then ['\n'] else [])
  | digits run | word run => run

/-- Holds of the lexemes whose characters are of their kind. -/
def WellFormed : Lexeme → Prop
  | blank c => Text.isBlank c = true
  | opening | closing => True
  | comment body _ => '\n' ∉ body
  | digits run => run ≠ [] ∧ ∀ c ∈ run, c.isDigit = true
  | word run => (∃ c ∈ run.head?, c.isDigit = false ∧ c ≠ ';') ∧ ∀ c ∈ run, isDelimiter c = false

/-- Holds of the lexemes that end before some characters: a run does not go on into them, and a
comment without line feed has nothing after it. -/
def EndsBefore (rest : List Char) : Lexeme → Prop
  | blank _ | opening | closing | comment _ true => True
  | comment _ false => rest = []
  | digits _ => ∀ c ∈ rest.head?, c.isDigit = false
  | word _ => ∀ c ∈ rest.head?, isDelimiter c = true

/-- The token that a lexeme yields, if any. -/
def token? : Lexeme → Option Token
  | blank _ | comment _ _ => none
  | opening => some (.opening none)
  | closing => some (.closing none)
  | digits run => some (.number (valueOf run))
  | word run => some (.word (some (String.ofList run)))

theorem chars_ne_nil {lexeme : Lexeme} (h : lexeme.WellFormed) : lexeme.chars ≠ [] := by
  cases lexeme with
  | blank c => exact List.cons_ne_nil c []
  | opening | closing => exact List.cons_ne_nil _ []
  | comment body ended => exact List.cons_ne_nil _ _
  | digits run => exact h.1
  | word run =>
    obtain ⟨⟨c, hc, -⟩, -⟩ := h
    rintro rfl
    cases hc

end Lexeme

/-! ### Splits -/

/-- The splits of a text, left to right: every lexeme is well formed and ends before the
characters of those after it. -/
inductive Split : List Char → List Lexeme → Prop
  | nil : Split [] []
  | cons {lexeme : Lexeme} {rest : List Char} {lexemes : List Lexeme} :
      lexeme.WellFormed → lexeme.EndsBefore rest → Split rest lexemes →
        Split (lexeme.chars ++ rest) (lexeme :: lexemes)

/-- A split skips no character and uses none twice. -/
theorem Split.flatMap_chars {text : List Char} {lexemes : List Lexeme} (h : Split text lexemes) :
    lexemes.flatMap Lexeme.chars = text := by
  induction h with
  | nil => rfl
  | cons _ _ _ ih => rw [List.flatMap_cons, ih]

theorem Split.wellFormed {text : List Char} {lexemes : List Lexeme} (h : Split text lexemes) :
    ∀ lexeme ∈ lexemes, lexeme.WellFormed := by
  induction h with
  | nil => intro lexeme hmem; cases hmem
  | cons hformed _ _ ih =>
    intro lexeme hmem
    rcases List.mem_cons.mp hmem with rfl | hmem
    · exact hformed
    · exact ih lexeme hmem

/-! ### The first lexeme of a text -/

/-- A lexeme is the first of a text, before the rest of it. -/
structure Lexeme.StandsBefore (lexeme : Lexeme) (rest text : List Char) : Prop where
  formed : lexeme.WellFormed
  ends : lexeme.EndsBefore rest
  covers : lexeme.chars ++ rest = text

/-- Holds of the characters that go on in a comment. -/
def isInComment (c : Char) : Bool := c ≠ '\n'

/-- Holds of the characters that go on in a word. -/
def isInWord (c : Char) : Bool := !isDelimiter c

theorem isInWord_iff {c : Char} : isInWord c = true ↔ isDelimiter c = false := by
  simp [isInWord]

theorem isInWord_eq_false_iff {c : Char} : isInWord c = false ↔ isDelimiter c = true := by
  simp [isInWord]

/-- The first lexeme of a text and what follows it. The text comes as its first character, which
decides on the kind, and the others. -/
def Lexeme.first (c : Char) (cs : List Char) : Lexeme × List Char :=
  if Text.isBlank c then (.blank c, cs)
  else if c = '(' then (.opening, cs)
  else if c = ')' then (.closing, cs)
  else if c = ';' then
    match cs.dropWhile isInComment with
    | [] => (.comment cs false, [])
    | _ :: rest => (.comment (cs.takeWhile isInComment) true, rest)
  else if c.isDigit then
    (.digits ((c :: cs).takeWhile Char.isDigit), (c :: cs).dropWhile Char.isDigit)
  else (.word ((c :: cs).takeWhile isInWord), (c :: cs).dropWhile isInWord)

section Runs

variable {p : Char → Bool} {run rest : List Char}

theorem takeWhile_run (hrun : ∀ c ∈ run, p c = true) (hrest : ∀ c ∈ rest.head?, p c = false) :
    (run ++ rest).takeWhile p = run ∧ (run ++ rest).dropWhile p = rest := by
  rw [List.takeWhile_append_of_pos hrun, List.dropWhile_append_of_pos hrun]
  cases rest with
  | nil => exact ⟨List.append_nil run, rfl⟩
  | cons c rest =>
    have hc : ¬p c = true := by simp [hrest c rfl]
    rw [List.takeWhile_cons_of_neg hc, List.dropWhile_cons_of_neg hc]
    exact ⟨List.append_nil run, rfl⟩

theorem head?_dropWhile_run (text : List Char) :
    ∀ c ∈ (text.dropWhile p).head?, p c = false := by
  intro c hc
  have hhead := List.head?_dropWhile_not p text
  rw [Option.mem_def.mp hc] at hhead
  exact hhead

end Runs

namespace Lexeme

variable {c : Char} {cs : List Char}

theorem first_of_isBlank (h : Text.isBlank c = true) : first c cs = (.blank c, cs) := by
  rw [first, if_pos h]

theorem first_semicolon :
    first ';' cs =
      match cs.dropWhile isInComment with
      | [] => (.comment cs false, [])
      | _ :: rest => (.comment (cs.takeWhile isInComment) true, rest) := by
  have hblank : ¬Text.isBlank ';' = true := by decide
  rw [first, if_neg hblank]
  rfl

theorem first_of_isDigit (h : c.isDigit = true) :
    first c cs =
      (.digits ((c :: cs).takeWhile Char.isDigit), (c :: cs).dropWhile Char.isDigit) := by
  obtain ⟨hblank, hopening, hclosing⟩ := isDelimiter_eq_false_iff.mp (isDelimiter_of_isDigit h)
  have hsemicolon : c ≠ ';' := by
    rintro rfl
    exact absurd h (by decide)
  rw [first, if_neg (by simp [hblank]), if_neg hopening, if_neg hclosing, if_neg hsemicolon,
    if_pos h]

theorem first_of_isDelimiter_eq_false (h : isDelimiter c = false) (hdigit : c.isDigit = false)
    (hsemicolon : c ≠ ';') :
    first c cs = (.word ((c :: cs).takeWhile isInWord), (c :: cs).dropWhile isInWord) := by
  obtain ⟨hblank, hopening, hclosing⟩ := isDelimiter_eq_false_iff.mp h
  rw [first, if_neg (by simp [hblank]), if_neg hopening, if_neg hclosing, if_neg hsemicolon,
    if_neg (by simp [hdigit])]

end Lexeme

/-- There is no other lexeme that a text can start with. -/
theorem Lexeme.first_eq {lexeme : Lexeme} {c : Char} {cs rest : List Char}
    (h : lexeme.StandsBefore rest (c :: cs)) : first c cs = (lexeme, rest) := by
  obtain ⟨hformed, hends, hcovers⟩ := h
  have htext : c :: cs = lexeme.chars ++ rest := hcovers.symm
  cases lexeme with
  | blank b =>
    obtain ⟨rfl, rfl⟩ := List.cons.inj htext
    exact first_of_isBlank hformed
  | opening =>
    obtain ⟨rfl, rfl⟩ := List.cons.inj htext
    rfl
  | closing =>
    obtain ⟨rfl, rfl⟩ := List.cons.inj htext
    rfl
  | comment body ended =>
    obtain ⟨rfl, rfl⟩ := List.cons.inj htext
    have hbody : ∀ d ∈ body, isInComment d = true := by
      intro d hd
      rw [isInComment, decide_eq_true_eq]
      rintro rfl
      exact hformed hd
    rw [first_semicolon]
    cases ended with
    | true =>
      have hline : ∀ d ∈ ('\n' :: rest).head?, isInComment d = false := by
        intro d hd
        cases hd
        rfl
      obtain ⟨htake, hdrop⟩ := takeWhile_run hbody hline
      simp [htake, hdrop]
    | false =>
      have hrest : rest = [] := hends
      subst hrest
      have hdrop : body.dropWhile isInComment = [] := List.dropWhile_eq_nil_iff.mpr hbody
      simp [hdrop]
  | digits run =>
    obtain ⟨hne, hrun⟩ := hformed
    have hdigit : c.isDigit = true := by
      obtain ⟨d, run, rfl⟩ := List.exists_cons_of_ne_nil hne
      obtain ⟨rfl, -⟩ := List.cons.inj htext
      exact hrun c List.mem_cons_self
    obtain ⟨htake, hdrop⟩ := takeWhile_run hrun hends
    rw [first_of_isDigit hdigit, htext, chars, htake, hdrop]
  | word run =>
    obtain ⟨⟨d, hd, hdigit, hsemicolon⟩, hrun⟩ := hformed
    obtain ⟨run, rfl⟩ : ∃ tail, run = d :: tail := List.head?_eq_some_iff.mp hd
    obtain ⟨rfl, -⟩ := List.cons.inj htext
    obtain ⟨htake, hdrop⟩ := takeWhile_run (p := isInWord)
      (fun d hd => isInWord_iff.mpr (hrun d hd))
      (fun d hd => isInWord_eq_false_iff.mpr (hends d hd))
    rw [first_of_isDelimiter_eq_false (hrun c List.mem_cons_self) hdigit hsemicolon, htext, chars,
      htake, hdrop]

theorem Lexeme.standsBefore_comment (cs : List Char) :
    (first ';' cs).1.StandsBefore (first ';' cs).2 (';' :: cs) := by
  have hbody : '\n' ∉ cs.takeWhile isInComment := by
    intro hmem
    simpa [isInComment] using List.mem_takeWhile_imp hmem
  have hsplit : cs.takeWhile isInComment ++ cs.dropWhile isInComment = cs :=
    List.takeWhile_append_dropWhile
  rw [first_semicolon]
  cases hdrop : cs.dropWhile isInComment with
  | nil =>
    rw [hdrop, List.append_nil] at hsplit
    rw [hsplit] at hbody
    exact ⟨hbody, rfl, by simp [chars]⟩
  | cons d rest =>
    have hd : d = '\n' := by
      have hhead := head?_dropWhile_run (p := isInComment) cs d (by rw [hdrop]; rfl)
      simpa [isInComment] using hhead
    subst hd
    rw [hdrop] at hsplit
    refine ⟨hbody, trivial, ?_⟩
    calc (comment (cs.takeWhile isInComment) true).chars ++ rest
        = ';' :: (cs.takeWhile isInComment ++ '\n' :: rest) := by simp [chars]
      _ = ';' :: cs := by rw [hsplit]

theorem Lexeme.standsBefore_digits {c : Char} (h : c.isDigit = true) (cs : List Char) :
    (first c cs).1.StandsBefore (first c cs).2 (c :: cs) := by
  rw [first_of_isDigit h]
  refine ⟨⟨?_, ?_⟩, ?_, List.takeWhile_append_dropWhile⟩
  · rw [List.takeWhile_cons_of_pos h]
    exact List.cons_ne_nil _ _
  · intro d hd
    exact List.mem_takeWhile_imp hd
  · exact head?_dropWhile_run _

theorem Lexeme.standsBefore_word {c : Char} (h : isDelimiter c = false)
    (hdigit : c.isDigit = false) (hsemicolon : c ≠ ';') (cs : List Char) :
    (first c cs).1.StandsBefore (first c cs).2 (c :: cs) := by
  rw [first_of_isDelimiter_eq_false h hdigit hsemicolon]
  refine ⟨⟨⟨c, ?_, hdigit, hsemicolon⟩, ?_⟩, ?_, List.takeWhile_append_dropWhile⟩
  · rw [List.takeWhile_cons_of_pos (isInWord_iff.mpr h)]
    rfl
  · intro d hd
    exact isInWord_iff.mp (List.mem_takeWhile_imp hd)
  · intro d hd
    exact isInWord_eq_false_iff.mp (head?_dropWhile_run _ d hd)

/-- The first lexeme of a text stands in it before the rest. -/
theorem Lexeme.standsBefore_first (c : Char) (cs : List Char) :
    (first c cs).1.StandsBefore (first c cs).2 (c :: cs) := by
  by_cases hblank : Text.isBlank c = true
  · rw [first_of_isBlank hblank]
    exact ⟨hblank, trivial, rfl⟩
  by_cases hopening : c = '('
  · subst hopening
    exact ⟨trivial, trivial, rfl⟩
  by_cases hclosing : c = ')'
  · subst hclosing
    exact ⟨trivial, trivial, rfl⟩
  by_cases hsemicolon : c = ';'
  · subst hsemicolon
    exact standsBefore_comment cs
  by_cases hdigit : c.isDigit = true
  · exact standsBefore_digits hdigit cs
  · have hinside : isDelimiter c = false :=
      isDelimiter_eq_false_iff.mpr ⟨Bool.eq_false_iff.mpr hblank, hopening, hclosing⟩
    exact standsBefore_word hinside (Bool.eq_false_iff.mpr hdigit) hsemicolon cs

/-! ### Existence and uniqueness -/

theorem Split.unique {text : List Char} {lexemes others : List Lexeme} (h : Split text lexemes)
    (hothers : Split text others) : lexemes = others := by
  induction h generalizing others with
  | nil =>
    generalize htext : ([] : List Char) = text at hothers
    cases hothers with
    | nil => rfl
    | cons hformed _ _ =>
      have hempty := (List.append_eq_nil_iff.mp htext.symm).1
      exact absurd hempty (Lexeme.chars_ne_nil hformed)
  | @cons lexeme rest lexemes hformed hends _ ih =>
    obtain ⟨c, cs, hchars⟩ := List.exists_cons_of_ne_nil (Lexeme.chars_ne_nil hformed)
    generalize htext : lexeme.chars ++ rest = text at hothers
    have hfirst : Lexeme.first c (cs ++ rest) = (lexeme, rest) :=
      Lexeme.first_eq ⟨hformed, hends, by rw [hchars]; rfl⟩
    cases hothers with
    | nil => rw [hchars] at htext; cases htext
    | @cons other rest' others hformed' hends' hothers =>
      have hfirst' : Lexeme.first c (cs ++ rest) = (other, rest') :=
        Lexeme.first_eq ⟨hformed', hends', by rw [← htext, hchars]; rfl⟩
      obtain ⟨rfl, rfl⟩ := Prod.mk.inj (hfirst.symm.trans hfirst')
      rw [ih hothers]

/-- Every text has a split. -/
theorem exists_split (text : List Char) : ∃ lexemes, Split text lexemes := by
  induction hlength : text.length using Nat.strong_induction_on generalizing text with
  | _ n ih =>
    cases text with
    | nil => exact ⟨[], .nil⟩
    | cons c cs =>
      obtain ⟨hformed, hends, htext⟩ := Lexeme.standsBefore_first c cs
      have hshorter : (Lexeme.first c cs).2.length < n := by
        have hpos := List.length_pos_iff.mpr (Lexeme.chars_ne_nil hformed)
        have hsum := congrArg List.length htext
        rw [List.length_append, hlength] at hsum
        omega
      obtain ⟨lexemes, hsplit⟩ := ih _ hshorter _ rfl
      refine ⟨(Lexeme.first c cs).1 :: lexemes, ?_⟩
      rw [← htext]
      exact .cons hformed hends hsplit

end PlusLisp.Token
