import PlusLisp.Proofs.Token.Spacing

/-!
Lines: a text is scanned line by line. A line feed ends every segment, comments included, so that
nothing before it has a say in what comes after it.

The tokens of two texts with a line feed between them are those of the first and then those of the
second, and the first fault is the fault of the whole (`scan_append_lineFeed`).

Main statement: `Scan.outcome_lines`.
-/

namespace PlusLisp.Token

namespace Scanner

/-- The tokens before a gap have no say in what comes after it. -/
theorem run_between (tokens : List Token) (text : List Char) :
    (Scanner.between tokens).run text = (initial.run text).map (· ++ tokens) := by
  obtain ⟨lexemes, hsplit⟩ := exists_split text
  obtain hfits | ⟨before, digits, after, rfl, hbefore, hexcess⟩ := fits_or_excess lexemes
  · rw [initial, run_split hsplit hfits, run_split hsplit hfits]
    simp [Except.map]
  · rw [initial, run_split_excess hsplit hbefore hexcess, run_split_excess hsplit hbefore hexcess]
    rfl

/-- A line feed completes the segment at hand, and the scan goes on from a gap. -/
theorem run_lineFeed (s : Scanner) (rest : List Char) :
    s.run ('\n' :: rest) = s.complete >>= fun tokens => (Scanner.between tokens).run rest := by
  obtain ⟨segment, tokens⟩ := s
  by_cases hcomment : segment = .comment
  · subst hcomment
    rfl
  · have hstart (tokens : List Token) : start tokens '\n' = Scanner.between tokens :=
      start_of_isBlank (by decide)
    rw [run_cons, feed_of_isDelimiter hcomment (by decide)]
    cases (⟨segment, tokens⟩ : Scanner).complete with
    | error fault => rfl
    | ok tokens => exact congrArg (fun s : Scanner => s.run rest) (hstart tokens)

end Scanner

/-- A text is scanned line by line. -/
theorem scan_append_lineFeed (before after : List Char) :
    scan (before ++ '\n' :: after) = do
      let tokens ← scan before
      let later ← scan after
      return tokens ++ later := by
  have hrun : Scanner.initial.run (before ++ '\n' :: after) =
      Scanner.initial.run before >>= fun tokens => (Scanner.between tokens).run after := by
    rw [Scanner.run_append]
    simp only [Scanner.run_lineFeed]
    exact (bind_assoc _ _ _).symm
  rw [scan_eq_run, scan_eq_run, scan_eq_run, hrun]
  cases Scanner.initial.run before with
  | error fault => rfl
  | ok tokens =>
    have hbetween : (Except.ok tokens >>= fun tokens => (Scanner.between tokens).run after) =
        (Scanner.initial.run after).map (· ++ tokens) := Scanner.run_between tokens after
    rw [hbetween]
    cases Scanner.initial.run after with
    | error fault => rfl
    | ok later => exact congrArg Except.ok List.reverse_append

/-! ### Programs -/

/-- The program text of given characters. A text that is written out is one by definition. -/
theorem Scan.ofProgram_ofList (text : List Char) :
    ofProgram (String.ofList text) = ofText (isolateParens text) := by
  rw [ofProgram, String.toList_ofList]

/-- Setting parentheses apart makes no difference to what a program is scanned to. -/
theorem Scan.ofProgram_outcome (text : String) :
    (Scan.ofProgram text).outcome = scan text.toList := by
  rw [ofProgram, ofText_outcome, scan_isolateParens]

/-- A program text is scanned line by line. -/
theorem Scan.ofProgram_append_lineFeed (before after : String) :
    (Scan.ofProgram (before ++ "\n" ++ after)).outcome = do
      let tokens ← (Scan.ofProgram before).outcome
      let later ← (Scan.ofProgram after).outcome
      return tokens ++ later := by
  have htext : (before ++ "\n" ++ after).toList = before.toList ++ '\n' :: after.toList := by
    rw [String.toList_append, String.toList_append, List.append_assoc]
    rfl
  rw [ofProgram_outcome, ofProgram_outcome, ofProgram_outcome, htext, scan_append_lineFeed]

/-- A line feed at the end of a program text makes no difference. -/
theorem Scan.ofProgram_lineFeed (text : String) :
    (Scan.ofProgram (text ++ "\n")).outcome = (Scan.ofProgram text).outcome := by
  have h := Scan.ofProgram_append_lineFeed text ""
  rw [String.append_empty] at h
  rw [h]
  cases (Scan.ofProgram text).outcome with
  | error fault => rfl
  | ok tokens => exact congrArg Except.ok (List.append_nil tokens)

/-- A scan is stopped by a run of digits and by nothing else. -/
theorem exists_digits_of_scan_eq_error {text : List Char} {fault : Fault}
    (h : scan text = .error fault) :
    ∃ digits, (∀ c ∈ digits, c.isDigit = true) ∧
      fault = .literalOutOfRange (String.ofList digits) := by
  obtain ⟨lexemes, hsplit⟩ := exists_split text
  obtain hfits | ⟨before, digits, after, rfl, hbefore, hexcess⟩ := fits_or_excess lexemes
  · rw [scan_split hsplit hfits] at h
    cases h
  · rw [scan_split_excess hsplit hbefore hexcess] at h
    have hformed : (Lexeme.digits digits).WellFormed :=
      hsplit.wellFormed _ (List.mem_append_right _ List.mem_cons_self)
    exact ⟨digits, hformed.2, (Except.error.inj h).symm⟩

/-! ### Comments between lines -/

/-- The body of a comment has no say in what comes after its line. -/
theorem scan_comment_lineFeed {comment : List Char} (h : '\n' ∉ comment) (after : List Char) :
    scan (';' :: comment ++ '\n' :: after) = scan after := by
  have hsplit : Split (';' :: comment) [.comment comment false] := by
    have hformed : (Lexeme.comment comment false).WellFormed := h
    have hchars : (Lexeme.comment comment false).chars = ';' :: comment := List.append_nil _
    have hlast := Split.cons hformed rfl .nil
    rwa [List.append_nil, hchars] at hlast
  have hcomment : scan (';' :: comment) = .ok [] :=
    scan_split hsplit (List.forall_mem_singleton.mpr trivial)
  rw [scan_append_lineFeed, hcomment]
  cases scan after <;> rfl

/-- **What lines are scanned to.** A line feed between two texts keeps them apart: the fault of the
first is that of the whole, or else the fault of the second, and else the tokens of the whole are
those of the first and then those of the second. A comment on a line of its own between them makes
no difference. -/
theorem Scan.outcome_lines (before after : List Char) :
    (∀ fault, (ofText before).outcome = .error fault →
      fault.family = .literal ∧ (ofText (before ++ '\n' :: after)).outcome = .error fault) ∧
    (∀ tokens fault, (ofText before).outcome = .ok tokens →
      (ofText after).outcome = .error fault →
      fault.family = .literal ∧ (ofText (before ++ '\n' :: after)).outcome = .error fault) ∧
    (∀ tokens later, (ofText before).outcome = .ok tokens → (ofText after).outcome = .ok later →
      (ofText (before ++ '\n' :: after)).outcome = .ok (tokens ++ later)) ∧
    ∀ comment, '\n' ∉ comment →
      (ofText (before ++ '\n' :: ';' :: comment ++ '\n' :: after)).outcome =
        (ofText (before ++ '\n' :: after)).outcome := by
  have hfamily {text : List Char} {fault : Fault} (h : scan text = .error fault) :
      fault.family = .literal := by
    obtain ⟨digits, -, rfl⟩ := exists_digits_of_scan_eq_error h
    rfl
  simp only [ofText_outcome, scan_append_lineFeed before after]
  refine ⟨?_, ?_, ?_, ?_⟩
  · intro fault hbefore
    exact ⟨hfamily hbefore, by rw [hbefore]; rfl⟩
  · intro tokens fault hbefore hafter
    exact ⟨hfamily hafter, by rw [hbefore, hafter]; rfl⟩
  · intro tokens later hbefore hafter
    rw [hbefore, hafter]
    rfl
  · intro comment hcomment
    rw [List.append_assoc, List.cons_append, scan_append_lineFeed, scan_comment_lineFeed hcomment]

end PlusLisp.Token
