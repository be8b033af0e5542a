import PlusLisp.Proofs.Token.Lexing

/-!
Spacing: blanks next to a delimiter change nothing about what a scan ends with.

A blank ends a run of characters as any delimiter does, and a comment takes it in, so that blanks
without line feed can stand wherever a run cannot go on (`Scanner.run_spacing_append`). From one
place this carries over to rewritings that put such blanks around any number of delimiters
(`Scanner.run_flatMap_of_pads`).

Main statement: `Scan.outcome_spacing`.
-/

namespace PlusLisp.Token

/-- Holds of the blanks that end no comment. -/
def IsSpacing (c : Char) : Prop := Text.isBlank c = true ∧ c ≠ '\n'

instance (c : Char) : Decidable (IsSpacing c) := by unfold IsSpacing; infer_instance

theorem isSpacing_space : IsSpacing ' ' := by decide

theorem isSpacing_carriageReturn : IsSpacing '\r' := by decide

theorem IsSpacing.isDelimiter {c : Char} (h : IsSpacing c) : isDelimiter c = true := by
  simp [Token.isDelimiter, h.1]

namespace Scanner

variable {s s' : Scanner} {c : Char} {text spacing rest : List Char} {tokens : List Token}

/-! ### Delimiters -/

/-- Holds of the scanners that are not in the middle of a number or a word. -/
def IsSettled (s : Scanner) : Prop := s.segment = .gap ∨ s.segment = .comment

theorem segment_start_of_isDelimiter (h : isDelimiter c = true) :
    (start tokens c).segment = .gap := by
  by_cases hblank : Text.isBlank c = true
  · rw [start_of_isBlank hblank]
  · have hparen : c = '(' ∨ c = ')' := by simpa [isDelimiter, hblank] using h
    rcases hparen with rfl | rfl <;> rfl

/-- Outside comments a delimiter completes the segment at hand. -/
theorem feed_of_isDelimiter (hs : s.segment ≠ .comment) (h : isDelimiter c = true) :
    s.feed c = s.complete.map (start · c) := by
  obtain ⟨segment, tokens⟩ := s
  cases segment with
  | gap => rfl
  | comment => exact absurd rfl hs
  | digits reversed =>
    have hdigit : ¬c.isDigit = true := by
      intro hdigit
      rw [isDelimiter_of_isDigit hdigit] at h
      cases h
    simp only [feed, if_neg hdigit]
  | word reversed => simp only [feed, if_pos h]

/-- Whatever the scanner was in the middle of, after a delimiter it no longer is. -/
theorem isSettled_of_feed (h : isDelimiter c = true) (hfeed : s.feed c = .ok s') :
    s'.IsSettled := by
  by_cases hs : s.segment = .comment
  · simp only [feed, hs, Except.ok.injEq] at hfeed
    subst hfeed
    by_cases hc : c = '\n'
    · exact .inl (by rw [if_pos hc])
    · exact .inr (by rw [if_neg hc, hs])
  · rw [feed_of_isDelimiter hs h] at hfeed
    cases hcomplete : s.complete with
    | error fault => rw [hcomplete] at hfeed; cases hfeed
    | ok tokens =>
      rw [hcomplete] at hfeed
      cases hfeed
      exact .inl (segment_start_of_isDelimiter h)

theorem run_append (s : Scanner) (text rest : List Char) :
    s.run (text ++ rest) = text.foldlM feed s >>= fun s' => s'.run rest := by
  simp only [run, List.foldlM_append, bind_assoc]

/-- A text that is empty or ends in a delimiter leaves a scanner that starts in a gap settled. -/
theorem isSettled_of_foldlM (htext : ∀ c ∈ text.getLast?, isDelimiter c = true)
    (hfold : text.foldlM feed initial = .ok s) : s.IsSettled := by
  rcases List.eq_nil_or_concat text with rfl | ⟨front, c, rfl⟩
  · cases hfold
    exact .inl rfl
  · have hc : isDelimiter c = true := htext c (by simp)
    rw [List.concat_eq_append, List.foldlM_append] at hfold
    cases hfront : front.foldlM feed initial with
    | error fault => rw [hfront] at hfold; cases hfold
    | ok s' =>
      rw [hfront] at hfold
      have hfeed : s'.feed c = .ok s := (bind_pure (s'.feed c)).symm.trans hfold
      exact isSettled_of_feed hc hfeed

/-! ### Spacing at one place -/

/-- A single blank may stand where no run can go on: after a settled scanner, or before a
delimiter or the end. -/
theorem run_spacing_cons (hc : IsSpacing c)
    (hplace : s.IsSettled ∨ ∀ d ∈ rest.head?, isDelimiter d = true) :
    s.run (c :: rest) = s.run rest := by
  have hblank (tokens : List Token) :
      (Scanner.between tokens).run (c :: rest) = (Scanner.between tokens).run rest := by
    rw [run_gap_cons, start_of_isBlank hc.1]
  obtain ⟨segment, tokens⟩ := s
  by_cases hcomment : segment = .comment
  · subst hcomment
    rw [run_cons]
    simp only [feed, if_neg hc.2]
    rfl
  by_cases hgap : segment = .gap
  · subst hgap
    exact hblank tokens
  -- In the middle of a run, the blank ends what the delimiter after it would end as well.
  have hrest : ∀ d ∈ rest.head?, isDelimiter d = true := by
    refine hplace.resolve_left ?_
    rintro (h | h)
    · exact hgap h
    · exact hcomment h
  have hends {rest : List Char} (hrest : ∀ d ∈ rest.head?, isDelimiter d = true) :
      (⟨segment, tokens⟩ : Scanner).run rest =
        (⟨segment, tokens⟩ : Scanner).complete >>= fun tokens =>
          (Scanner.between tokens).run rest :=
    run_of_feed fun d hd => feed_of_isDelimiter hcomment (hrest d hd)
  have hhead : ∀ d ∈ (c :: rest).head?, isDelimiter d = true := by
    rintro d ⟨⟩
    exact hc.isDelimiter
  rw [hends hhead, hends hrest]
  simp only [hblank]

theorem run_spacing_append (hspacing : ∀ c ∈ spacing, IsSpacing c)
    (hplace : s.IsSettled ∨ ∀ d ∈ rest.head?, isDelimiter d = true) :
    s.run (spacing ++ rest) = s.run rest := by
  induction spacing with
  | nil => rfl
  | cons c spacing ih =>
    rw [List.forall_mem_cons] at hspacing
    obtain ⟨hc, hspacing⟩ := hspacing
    have hplace' : s.IsSettled ∨ ∀ d ∈ (spacing ++ rest).head?, isDelimiter d = true := by
      cases spacing with
      | nil => exact hplace
      | cons b spacing =>
        right
        rintro d ⟨⟩
        exact (hspacing b List.mem_cons_self).isDelimiter
    rw [List.cons_append, run_spacing_cons hc hplace', ih hspacing]

/-! ### Spacing at many places -/

/-- Holds of the ways of writing single characters that put spacing around some delimiters and
leave all other characters as they are. -/
def Pads (write : Char → List Char) : Prop :=
  ∀ c, write c = [c] ∨ isDelimiter c = true ∧
    ∃ before after, write c = before ++ c :: after ∧ (∀ b ∈ before, IsSpacing b) ∧
      ∀ b ∈ after, IsSpacing b

/-- Spacing around any number of delimiters changes nothing, whatever is scanned before. -/
theorem run_flatMap_of_pads {write : Char → List Char} (hpads : Pads write) (s : Scanner)
    (text : List Char) : s.run (text.flatMap write) = s.run text := by
  induction text generalizing s with
  | nil => rfl
  | cons c text ih =>
    rw [List.flatMap_cons]
    rcases hpads c with hplain | ⟨hc, before, after, hwrite, hbefore, hafter⟩
    · rw [hplain, List.singleton_append, run_cons, run_cons]
      simp only [ih]
    · have hhead : ∀ d ∈ (c :: (after ++ text.flatMap write)).head?, isDelimiter d = true := by
        rintro d ⟨⟩
        exact hc
      rw [hwrite, List.append_assoc, List.cons_append, run_spacing_append hbefore (.inr hhead),
        run_cons, run_cons]
      cases hfeed : s.feed c with
      | error fault => rfl
      | ok s' =>
        calc s'.run (after ++ text.flatMap write)
            = s'.run (text.flatMap write) :=
              run_spacing_append hafter (.inl (isSettled_of_feed hc hfeed))
          _ = s'.run text := ih s'

end Scanner

/-! ### Spacing of texts -/

/-- A text with a carriage return before every line feed. -/
def withCarriageReturns (text : List Char) : List Char :=
  text.flatMap fun c => if c = '\n' then ['\r', c] else [c]

theorem scan_flatMap_of_pads {write : Char → List Char} (hpads : Scanner.Pads write)
    (text : List Char) : scan (text.flatMap write) = scan text := by
  rw [scan_eq_run, scan_eq_run, Scanner.run_flatMap_of_pads hpads]

/-- Setting parentheses apart changes nothing about the tokens. -/
theorem scan_isolateParens (text : List Char) : scan (isolateParens text) = scan text := by
  refine scan_flatMap_of_pads ?_ text
  intro c
  by_cases hparen : c = '(' ∨ c = ')'
  · right
    have hspace : ∀ c ∈ [' '], IsSpacing c := List.forall_mem_singleton.mpr isSpacing_space
    refine ⟨?_, [' '], [' '], if_pos hparen, hspace, hspace⟩
    rcases hparen with rfl | rfl <;> rfl
  · exact .inl (if_neg hparen)

theorem scan_withCarriageReturns (text : List Char) :
    scan (withCarriageReturns text) = scan text := by
  refine scan_flatMap_of_pads ?_ text
  intro c
  by_cases hfeed : c = '\n'
  · subst hfeed
    exact .inr ⟨rfl, ['\r'], [], rfl, List.forall_mem_singleton.mpr isSpacing_carriageReturn,
      List.forall_mem_nil _⟩
  · exact .inl (if_neg hfeed)

theorem scan_append_spacing {before spacing after : List Char}
    (hspacing : ∀ c ∈ spacing, IsSpacing c)
    (hplace : (∀ c ∈ before.getLast?, isDelimiter c = true) ∨
      ∀ c ∈ after.head?, isDelimiter c = true) :
    scan (before ++ spacing ++ after) = scan (before ++ after) := by
  rw [scan_eq_run, scan_eq_run, List.append_assoc, Scanner.run_append, Scanner.run_append]
  cases hfold : before.foldlM Scanner.feed .initial with
  | error fault => rfl
  | ok s =>
    have hsettled : s.IsSettled ∨ ∀ c ∈ after.head?, isDelimiter c = true :=
      hplace.imp_left fun hbefore => Scanner.isSettled_of_foldlM hbefore hfold
    have hrun : s.run (spacing ++ after) = s.run after :=
      Scanner.run_spacing_append hspacing hsettled
    exact congrArg (Except.map List.reverse) hrun

/-- **Spacing never changes what a text means.** Blanks other than line feeds may come between two
parts of a text when the first is empty or ends in a delimiter, or the second is empty or starts
with one: the scan ends with the same tokens, or with the same fault. So parentheses may be set
apart, and lines may end in a carriage return and a line feed. -/
theorem Scan.outcome_spacing :
    (∀ before spacing after : List Char, (∀ c ∈ spacing, Text.isBlank c = true ∧ c ≠ '\n') →
      ((∀ c ∈ before.getLast?, isDelimiter c = true) ∨
        ∀ c ∈ after.head?, isDelimiter c = true) →
      (Scan.ofText (before ++ spacing ++ after)).outcome =
        (Scan.ofText (before ++ after)).outcome) ∧
    (∀ text : String, (Scan.ofProgram text).outcome = (Scan.ofText text.toList).outcome) ∧
    ∀ text : List Char,
      (Scan.ofText (withCarriageReturns text)).outcome = (Scan.ofText text).outcome := by
  simp only [Scan.ofProgram, Scan.ofText_outcome]
  refine ⟨?_, ?_, ?_⟩
  · intro before spacing after hspacing hplace
    exact scan_append_spacing hspacing hplace
  · intro text
    exact scan_isolateParens text.toList
  · intro text
    exact scan_withCarriageReturns text

-- Parentheses inside a comment are set apart as well, and it stays a comment.
example : scan (isolateParens "a;b(12)c ;)\n3".toList) =
    .ok [.word (some "a;b"), .opening none, .number 12, .closing none, .word (some "c"),
      .number 3] := by
  rfl

end PlusLisp.Token
