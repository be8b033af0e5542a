import PlusLisp.Proofs.Token.Lexeme

/-!
The scanner and the lexical grammar: a scan takes the one split of its text, lexeme by lexeme.

`Scanner.run` is the rest of a scan from a state on. Between two lexemes the scanner is in a gap
(`Scanner.between`), so that the runs over one lexeme (`run_lexeme`, `run_excess`) compose along a
split to the run over a whole text (`run_split`).

Main statement: `Scan.ofText_eq_split`.
-/

namespace PlusLisp.Token

/-! ### Runs of the scanner -/

namespace Scanner

/-- The scanner between two lexemes, with the tokens before it, newest first. -/
abbrev between (tokens : List Token) : Scanner := ⟨.gap, tokens⟩

/-- The rest of a scan from a state on: all its tokens, newest first. -/
def run (s : Scanner) (text : List Char) : Except Fault (List Token) :=
  text.foldlM feed s >>= complete

variable {reversed digits characters rest : List Char} {tokens : List Token}

@[simp] theorem run_nil (s : Scanner) : s.run [] = s.complete := rfl

theorem run_cons (s : Scanner) (c : Char) (text : List Char) :
    s.run (c :: text) = s.feed c >>= fun s' => s'.run text := by
  simp only [run, List.foldlM_cons, bind_assoc]

@[simp] theorem run_gap_cons (c : Char) (text : List Char) :
    (Scanner.between tokens).run (c :: text) = (start tokens c).run text := run_cons _ c text

theorem run_comment (hbody : '\n' ∉ characters) :
    (⟨.comment, tokens⟩ : Scanner).run (characters ++ rest) =
      (⟨.comment, tokens⟩ : Scanner).run rest := by
  induction characters with
  | nil => rfl
  | cons c characters ih =>
    rw [List.mem_cons, not_or] at hbody
    obtain ⟨hc, hbody⟩ := hbody
    rw [List.cons_append, run_cons]
    simp only [feed, if_neg (Ne.symm hc)]
    exact ih hbody

theorem run_digits (hdigits : ∀ c ∈ digits, c.isDigit = true) :
    (⟨.digits reversed, tokens⟩ : Scanner).run (digits ++ rest) =
      (⟨.digits (digits.reverse ++ reversed), tokens⟩ : Scanner).run rest := by
  induction digits generalizing reversed with
  | nil => rfl
  | cons c digits ih =>
    rw [List.forall_mem_cons] at hdigits
    obtain ⟨hc, hdigits⟩ := hdigits
    rw [List.cons_append, run_cons]
    simp only [feed, if_pos hc]
    rw [List.reverse_cons, List.append_assoc]
    exact ih hdigits

theorem run_word (hword : ∀ c ∈ characters, isDelimiter c = false) :
    (⟨.word reversed, tokens⟩ : Scanner).run (characters ++ rest) =
      (⟨.word (characters.reverse ++ reversed), tokens⟩ : Scanner).run rest := by
  induction characters generalizing reversed with
  | nil => rfl
  | cons c characters ih =>
    rw [List.forall_mem_cons] at hword
    obtain ⟨hc, hword⟩ := hword
    rw [List.cons_append, run_cons]
    simp only [feed, hc, Bool.false_eq_true, if_false]
    rw [List.reverse_cons, List.append_assoc]
    exact ih hword

/-- A run of characters that does not go on is completed, and the scan goes on from a gap. -/
theorem run_of_feed {s : Scanner}
    (hfeed : ∀ c ∈ rest.head?, s.feed c = s.complete.map (start · c)) :
    s.run rest = s.complete >>= fun tokens => (Scanner.between tokens).run rest := by
  cases rest with
  | nil => cases hcomplete : s.complete <;> simp [run, hcomplete] <;> rfl
  | cons c rest =>
    rw [run_cons, hfeed c rfl]
    cases s.complete with
    | error fault => rfl
    | ok tokens => exact (run_gap_cons c rest).symm

end Scanner

theorem scan_eq_run (text : List Char) :
    scan text = (Scanner.initial.run text).map List.reverse := by
  simp only [scan, Scanner.run]
  cases text.foldlM Scanner.feed .initial with
  | error fault => rfl
  | ok s =>
    cases hcomplete : s.complete with
    | error fault => simp [hcomplete, Except.map, bind, Except.bind]
    | ok tokens => simp [hcomplete, Except.map, bind, Except.bind, pure, Except.pure]

/-! ### Starts of lexemes -/

section Starts

variable {c : Char} {tokens : List Token}

theorem start_of_isBlank (h : Text.isBlank c = true) :
    Scanner.start tokens c = ⟨.gap, tokens⟩ := by
  rw [Scanner.start, if_pos h]

theorem start_of_isDigit (h : c.isDigit = true) :
    Scanner.start tokens c = ⟨.digits [c], tokens⟩ := by
  have hsemicolon : c ≠ ';' := by rintro rfl; exact absurd h (by decide)
  obtain ⟨hblank, hopening, hclosing⟩ := isDelimiter_eq_false_iff.mp (isDelimiter_of_isDigit h)
  rw [Scanner.start, if_neg (by simp [hblank]), if_neg hopening, if_neg hclosing,
    if_neg hsemicolon, if_pos h]

theorem start_of_isDelimiter_eq_false (h : isDelimiter c = false) (hdigit : c.isDigit = false)
    (hsemicolon : c ≠ ';') : Scanner.start tokens c = ⟨.word [c], tokens⟩ := by
  obtain ⟨hblank, hopening, hclosing⟩ := isDelimiter_eq_false_iff.mp h
  rw [Scanner.start, if_neg (by simp [hblank]), if_neg hopening, if_neg hclosing,
    if_neg hsemicolon, if_neg (by simp [hdigit])]

end Starts

/-! ### Runs over lexemes -/

/-- Holds of the lexemes that a scan accepts: a run of digits must stand for a number. -/
def Lexeme.Fits : Lexeme → Prop
  | .digits run => valueOf run ≤ Signed64.highest
  | _ => True

section Lexemes

variable {rest : List Char} {tokens : List Token}

/-- A run of digits is read as a whole, and the scan goes on from a gap. -/
theorem run_digits_lexeme {digits : List Char} (hformed : (Lexeme.digits digits).WellFormed)
    (hends : (Lexeme.digits digits).EndsBefore rest) :
    (Scanner.between tokens).run (digits ++ rest) =
      literal digits >>= fun token => (Scanner.between (token :: tokens)).run rest := by
  obtain ⟨hne, hdigits⟩ := hformed
  obtain ⟨c, digits, rfl⟩ := List.exists_cons_of_ne_nil hne
  rw [List.forall_mem_cons] at hdigits
  obtain ⟨hc, hdigits⟩ := hdigits
  have hfeed : ∀ d ∈ rest.head?, (⟨.digits (digits.reverse ++ [c]), tokens⟩ : Scanner).feed d =
      (⟨.digits (digits.reverse ++ [c]), tokens⟩ : Scanner).complete.map (Scanner.start · d) := by
    intro d hd
    have hstop : d.isDigit = false := hends d hd
    simp only [Scanner.feed, hstop, Bool.false_eq_true, if_false]
  have hcomplete : (⟨.digits (digits.reverse ++ [c]), tokens⟩ : Scanner).complete =
      (literal (c :: digits)).map (· :: tokens) := by
    simp [Scanner.complete]
  rw [List.cons_append, Scanner.run_gap_cons, start_of_isDigit hc, Scanner.run_digits hdigits,
    Scanner.run_of_feed hfeed, hcomplete]
  cases literal (c :: digits) <;> rfl

theorem run_word_lexeme {run : List Char} (hformed : (Lexeme.word run).WellFormed)
    (hends : (Lexeme.word run).EndsBefore rest) :
    (Scanner.between tokens).run (run ++ rest) =
      (Scanner.between (.word (some (String.ofList run)) :: tokens)).run rest := by
  obtain ⟨⟨c, hhead, hdigit, hsemicolon⟩, hrun⟩ := hformed
  obtain ⟨run, rfl⟩ : ∃ tail, run = c :: tail := List.head?_eq_some_iff.mp hhead
  rw [List.forall_mem_cons] at hrun
  obtain ⟨hc, hrun⟩ := hrun
  have hfeed : ∀ d ∈ rest.head?, (⟨.word (run.reverse ++ [c]), tokens⟩ : Scanner).feed d =
      (⟨.word (run.reverse ++ [c]), tokens⟩ : Scanner).complete.map (Scanner.start · d) := by
    intro d hd
    have hstop : isDelimiter d = true := hends d hd
    simp only [Scanner.feed, hstop, if_true]
  have hcomplete : (⟨.word (run.reverse ++ [c]), tokens⟩ : Scanner).complete =
      .ok (.word (some (String.ofList (c :: run))) :: tokens) := by
    simp [Scanner.complete]
  rw [List.cons_append, Scanner.run_gap_cons,
    start_of_isDelimiter_eq_false hc hdigit hsemicolon, Scanner.run_word hrun,
    Scanner.run_of_feed hfeed, hcomplete]
  rfl

/-- A comment yields nothing, and the scan goes on from a gap. -/
theorem run_comment_lexeme {body : List Char} {ended : Bool}
    (hformed : (Lexeme.comment body ended).WellFormed)
    (hends : (Lexeme.comment body ended).EndsBefore rest) :
    (Scanner.between tokens).run ((Lexeme.comment body ended).chars ++ rest) =
      (Scanner.between tokens).run rest := by
  have hstart : Scanner.start tokens ';' = ⟨.comment, tokens⟩ := rfl
  cases ended with
  | true =>
    calc (Scanner.between tokens).run ((Lexeme.comment body true).chars ++ rest)
        = (⟨.comment, tokens⟩ : Scanner).run (body ++ '\n' :: rest) := by
          simp [Lexeme.chars, hstart]
      _ = (⟨.comment, tokens⟩ : Scanner).run ('\n' :: rest) := Scanner.run_comment hformed
      _ = (Scanner.between tokens).run rest := by rw [Scanner.run_cons]; rfl
  | false =>
    have hrest : rest = [] := hends
    subst hrest
    calc (Scanner.between tokens).run ((Lexeme.comment body false).chars ++ [])
        = (⟨.comment, tokens⟩ : Scanner).run (body ++ []) := by simp [Lexeme.chars, hstart]
      _ = (⟨.comment, tokens⟩ : Scanner).run [] := Scanner.run_comment hformed

/-- The run over a lexeme that fits takes in its token. -/
theorem run_lexeme {lexeme : Lexeme} (hformed : lexeme.WellFormed)
    (hends : lexeme.EndsBefore rest) (hfits : lexeme.Fits) :
    (Scanner.between tokens).run (lexeme.chars ++ rest) =
      (Scanner.between (lexeme.token?.toList ++ tokens)).run rest := by
  cases lexeme with
  | blank c =>
    have hstart : Scanner.start tokens c = ⟨.gap, tokens⟩ := start_of_isBlank hformed
    simp [Lexeme.chars, Lexeme.token?, hstart]
  | opening | closing => rfl
  | comment body ended => exact run_comment_lexeme hformed hends
  | digits run =>
    have hvalue : ¬Signed64.highest < valueOf run := Int.not_lt.mpr hfits
    rw [Lexeme.chars, run_digits_lexeme hformed hends, literal_eq hformed.2, if_neg hvalue]
    rfl
  | word run => exact run_word_lexeme hformed hends

/-- The run over digits that do not fit stops at the fault that shows them. -/
theorem run_excess {digits : List Char} (hformed : (Lexeme.digits digits).WellFormed)
    (hends : (Lexeme.digits digits).EndsBefore rest) (hexcess : ¬(Lexeme.digits digits).Fits) :
    (Scanner.between tokens).run (digits ++ rest) =
      .error (.literalOutOfRange (String.ofList digits)) := by
  have hvalue : Signed64.highest < valueOf digits := Int.not_le.mp hexcess
  rw [run_digits_lexeme hformed hends, literal_eq hformed.2, if_pos hvalue]
  rfl

end Lexemes

/-! ### Runs along a split -/

section Splits

variable {text : List Char} {lexemes : List Lexeme} {tokens : List Token}

theorem run_split (h : Split text lexemes) (hfits : ∀ lexeme ∈ lexemes, lexeme.Fits) :
    (Scanner.between tokens).run text =
      .ok ((lexemes.filterMap Lexeme.token?).reverse ++ tokens) := by
  induction h generalizing tokens with
  | nil => rfl
  | @cons lexeme rest lexemes hformed hends _ ih =>
    rw [List.forall_mem_cons] at hfits
    obtain ⟨hfit, hfits⟩ := hfits
    rw [run_lexeme hformed hends hfit, ih hfits]
    cases hyield : lexeme.token? <;> simp [hyield]

theorem run_split_excess {before after : List Lexeme} {digits : List Char}
    (h : Split text (before ++ .digits digits :: after)) (hbefore : ∀ lexeme ∈ before, lexeme.Fits)
    (hexcess : ¬(Lexeme.digits digits).Fits) :
    (Scanner.between tokens).run text =
      .error (.literalOutOfRange (String.ofList digits)) := by
  induction before generalizing text tokens with
  | nil =>
    cases h with
    | cons hformed hends _ => exact run_excess hformed hends hexcess
  | cons lexeme before ih =>
    rw [List.forall_mem_cons] at hbefore
    obtain ⟨hfit, hbefore⟩ := hbefore
    cases h with
    | cons hformed hends hsplit => rw [run_lexeme hformed hends hfit, ih hsplit hbefore]

theorem scan_split (h : Split text lexemes) (hfits : ∀ lexeme ∈ lexemes, lexeme.Fits) :
    scan text = .ok (lexemes.filterMap Lexeme.token?) := by
  rw [scan_eq_run, Scanner.initial, run_split h hfits]
  simp [Except.map]

theorem scan_split_excess {before after : List Lexeme} {digits : List Char}
    (h : Split text (before ++ .digits digits :: after)) (hbefore : ∀ lexeme ∈ before, lexeme.Fits)
    (hexcess : ¬(Lexeme.digits digits).Fits) :
    scan text = .error (.literalOutOfRange (String.ofList digits)) := by
  rw [scan_eq_run, Scanner.initial, run_split_excess h hbefore hexcess]
  rfl

/-- Either all lexemes fit, or there is a first run of digits that does not. -/
theorem fits_or_excess (lexemes : List Lexeme) :
    (∀ lexeme ∈ lexemes, lexeme.Fits) ∨
      ∃ before digits after, lexemes = before ++ .digits digits :: after ∧
        (∀ lexeme ∈ before, lexeme.Fits) ∧ ¬(Lexeme.digits digits).Fits := by
  induction lexemes with
  | nil =>
    left
    intro lexeme hmem
    cases hmem
  | cons lexeme lexemes ih =>
    by_cases hfit : lexeme.Fits
    · obtain hfits | ⟨before, digits, after, rfl, hbefore, hexcess⟩ := ih
      · exact .inl (List.forall_mem_cons.mpr ⟨hfit, hfits⟩)
      · right
        exact ⟨lexeme :: before, digits, after, rfl,
          List.forall_mem_cons.mpr ⟨hfit, hbefore⟩, hexcess⟩
    · cases lexeme with
      | digits digits =>
        right
        refine ⟨[], digits, lexemes, rfl, ?_, hfit⟩
        intro lexeme hmem
        cases hmem
      | blank | opening | closing | comment | word => exact absurd trivial hfit

/-- Only runs of digits can fail to fit. -/
theorem forall_fits_iff :
    (∀ lexeme ∈ lexemes, lexeme.Fits) ↔
      ∀ run, Lexeme.digits run ∈ lexemes → valueOf run ≤ Signed64.highest := by
  constructor
  · intro h run hmem
    exact h _ hmem
  · intro h lexeme hmem
    cases lexeme with
    | digits run => exact h run hmem
    | blank | opening | closing | comment | word => trivial

theorem scan_eq_ok_iff {tokens : List Token} :
    scan text = .ok tokens ↔
      ∃ lexemes, Split text lexemes ∧ (∀ lexeme ∈ lexemes, lexeme.Fits) ∧
        lexemes.filterMap Lexeme.token? = tokens := by
  constructor
  · intro hscan
    obtain ⟨lexemes, hsplit⟩ := exists_split text
    obtain hfits | ⟨before, digits, after, rfl, hbefore, hexcess⟩ := fits_or_excess lexemes
    · rw [scan_split hsplit hfits] at hscan
      exact ⟨lexemes, hsplit, hfits, Except.ok.inj hscan⟩
    · rw [scan_split_excess hsplit hbefore hexcess] at hscan
      cases hscan
  · rintro ⟨lexemes, hsplit, hfits, rfl⟩
    exact scan_split hsplit hfits

end Splits

theorem Scan.ofText_outcome (text : List Char) : (Scan.ofText text).outcome = scan text := by
  unfold Scan.ofText
  cases hscan : scan text <;> rfl

/-- The scanner implements the lexical grammar. Every text has exactly one split into lexemes. If
the runs of digits in it all stand for numbers, then a scan yields the tokens of the lexemes, in
order; otherwise it is stopped by a fault that shows the first run that does not, as it stands. -/
theorem Scan.ofText_eq_split (text : List Char) :
    ∃ lexemes, Split text lexemes ∧ (∀ others, Split text others → others = lexemes) ∧
      lexemes.flatMap Lexeme.chars = text ∧
      ((∀ run, Lexeme.digits run ∈ lexemes → valueOf run ≤ Signed64.highest) →
        (Scan.ofText text).outcome = .ok (lexemes.filterMap Lexeme.token?)) ∧
      (∀ before run after, lexemes = before ++ .digits run :: after →
        (∀ earlier, Lexeme.digits earlier ∈ before → valueOf earlier ≤ Signed64.highest) →
        Signed64.highest < valueOf run →
        ∃ fault, (Scan.ofText text).outcome = .error fault ∧ fault.family = .literal ∧
          fault.message = "Integer literal out of range: " ++ String.ofList run) := by
  obtain ⟨lexemes, hsplit⟩ := exists_split text
  refine ⟨lexemes, hsplit, fun others hothers => hothers.unique hsplit, hsplit.flatMap_chars,
    ?_, ?_⟩
  · intro hfits
    rw [Scan.ofText_outcome]
    exact scan_split hsplit (forall_fits_iff.mpr hfits)
  · intro before run after hlexemes hbefore hexcess
    subst hlexemes
    refine ⟨.literalOutOfRange (String.ofList run), ?_, rfl, rfl⟩
    rw [Scan.ofText_outcome]
    exact scan_split_excess hsplit (forall_fits_iff.mpr hbefore) (Int.not_le.mpr hexcess)

-- A word may follow a number at once, and a semicolon inside it starts no comment.
example :
    (Scan.ofText "12a;b ;c\n(007".toList).outcome =
      .ok [.number 12, .word (some "a;b"), .opening none, .number 7] := by
  rfl

end PlusLisp.Token
