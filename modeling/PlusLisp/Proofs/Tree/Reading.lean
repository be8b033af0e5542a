import PlusLisp.Proofs.Token.Nesting
import PlusLisp.Proofs.Tree.Flatten

/-!
Reading loses no token and makes none up.

While a reading goes on, the trees at hand stand for exactly the tokens taken so far (`taken`), and
as many lists are open as the tokens have left open (`readInto_nesting`). When it ends, the tree
stands for the tokens before the first closing parenthesis without partner, with one closing
parenthesis for each list that is still open (`read_unmatched`, `read_nesting`).

Main statement: `read_complete`.
-/

namespace PlusLisp

/-- The token without the payload that a parenthesis may carry. -/
def Token.bare : Token → Token
  | .opening _ => .opening none
  | .closing _ => .closing none
  | token => token

theorem Token.bare_eq_self {token : Token} (hopening : token.isOpening = false)
    (hclosing : token.isClosing = false) : token.bare = token := by
  cases token with
  | opening payload => cases hopening
  | closing payload => cases hclosing
  | number | word | unknown => rfl

/-- The warnings of a reading. -/
def Reading.warnings (reading : Reading) : List Event :=
  reading.log.filter (·.severity = .warning)

theorem Supply.afterReading_queue {tokens : List Token} {reading : Reading}
    (h : Tree.read tokens = reading) : (queue tokens).afterReading = queue reading.rest := by
  rw [afterReading, h]

namespace Tree

open Token (Nesting FirstUnmatched IsNested unclosed)

theorem flattenEach_append (trees others : List Tree) :
    flattenEach (trees ++ others) = flattenEach trees ++ flattenEach others := by
  induction trees with
  | nil => rfl
  | cons tree trees ih =>
    rw [List.cons_append, flattenEach_cons, flattenEach_cons, ih, List.append_assoc]

/-! ### The tokens of an unfinished reading -/

/-- The tokens that the trees of an unfinished reading stand for. A list that is open has its
opening parenthesis and no closing one. -/
def taken : List Tree → List (List Tree) → List Token
  | current, [] => flattenEach current.reverse
  | current, outer :: around => taken outer around ++ .opening none :: flattenEach current.reverse

theorem taken_cons (tree : Tree) (current : List Tree) (around : List (List Tree)) :
    taken (tree :: current) around = taken current around ++ tree.flatten := by
  have hlast : flattenEach (tree :: current).reverse =
      flattenEach current.reverse ++ tree.flatten := by
    rw [List.reverse_cons, flattenEach_append, flattenEach_cons, flattenEach, List.append_nil]
  cases around with
  | nil => exact hlast
  | cons outer around => rw [taken, hlast, taken, List.append_assoc, List.cons_append]

theorem taken_open (current : List Tree) (around : List (List Tree)) :
    taken [] (current :: around) = taken current around ++ [.opening none] := rfl

/-- Closing a list only adds its closing parenthesis. -/
theorem taken_close (current outer : List Tree) (around : List (List Tree)) :
    taken (list current.reverse :: outer) around =
      taken current (outer :: around) ++ [.closing none] := by
  rw [taken_cons, flatten_list, taken, List.append_assoc]

/-- At the end each open list gets its closing parenthesis. -/
theorem flattenEach_closeAll (current : List Tree) (around : List (List Tree)) :
    flattenEach (closeAll current around) =
      taken current around ++ List.replicate around.length (.closing none) := by
  induction around generalizing current with
  | nil => exact (List.append_nil _).symm
  | cons outer around ih =>
    rw [closeAll, ih, taken_close, List.append_assoc, List.length_cons, List.replicate_succ]
    rfl

/-! ### Reading nested tokens -/

section

variable {level last : Nat} {token : Token} {tokens front rest : List Token}

/-- A token that is no parenthesis becomes a tree of the innermost open list. -/
theorem readInto_inner (hopening : token.isOpening = false) (hclosing : token.isClosing = false)
    (hreadable : token.IsReadable) (tokens : List Token) (current : List Tree)
    (around : List (List Tree)) :
    ∃ tree : Tree, tree.flatten = [token] ∧
      readInto (token :: tokens) current around = readInto tokens (tree :: current) around := by
  cases token with
  | opening payload => cases hopening
  | closing payload => cases hclosing
  | number value =>
    have hrange : Signed64.InRange value := hreadable
    refine ⟨number value, rfl, ?_⟩
    rw [readInto.eq_def]
    exact if_pos hrange
  | word text => exact ⟨word text, rfl, rfl⟩
  | unknown kind value => exact absurd hreadable id

/-- Reading nested tokens takes them all and goes on with the rest, with as many lists open as the
tokens leave open. -/
theorem readInto_nesting (h : Nesting level tokens last)
    (hreadable : ∀ token ∈ tokens, token.IsReadable) (rest : List Token) (current : List Tree)
    (around : List (List Tree)) (hlevel : around.length = level) :
    ∃ current' around', around'.length = last ∧
      taken current' around' = taken current around ++ tokens.map Token.bare ∧
      readInto (tokens ++ rest) current around = readInto rest current' around' := by
  induction h generalizing current around with
  | nil => exact ⟨current, around, hlevel, (List.append_nil _).symm, rfl⟩
  | opening _ ih =>
    rw [List.forall_mem_cons] at hreadable
    obtain ⟨current', around', hlast, htaken, hread⟩ :=
      ih hreadable.2 [] (current :: around) (by rw [List.length_cons, hlevel])
    refine ⟨current', around', hlast, ?_, hread⟩
    rw [htaken, taken_open, List.append_assoc]
    rfl
  | closing _ ih =>
    rw [List.forall_mem_cons] at hreadable
    obtain ⟨outer, around, rfl⟩ : ∃ outer outers, around = outer :: outers :=
      List.exists_cons_of_length_eq_add_one hlevel
    obtain ⟨current', around', hlast, htaken, hread⟩ :=
      ih hreadable.2 (list current.reverse :: outer) around (Nat.succ.inj hlevel)
    refine ⟨current', around', hlast, ?_, hread⟩
    rw [htaken, taken_close, List.append_assoc]
    rfl
  | @inner _ _ token tokens hopening hclosing _ ih =>
    rw [List.forall_mem_cons] at hreadable
    obtain ⟨tree, hflatten, hstep⟩ :=
      readInto_inner hopening hclosing hreadable.1 (tokens ++ rest) current around
    obtain ⟨current', around', hlast, htaken, hread⟩ :=
      ih hreadable.2 (tree :: current) around hlevel
    refine ⟨current', around', hlast, ?_, hstep.trans hread⟩
    rw [htaken, taken_cons, hflatten, List.append_assoc, List.map_cons,
      Token.bare_eq_self hopening hclosing]
    rfl

/-- Nested tokens are read to their end. Their lists are closed there, and there is a warning when
that had to be done. -/
theorem read_nesting (h : Nesting 0 tokens last) (hreadable : ∀ token ∈ tokens, token.IsReadable) :
    ∃ forms, flattenEach forms = tokens.map Token.bare ++ List.replicate last (.closing none) ∧
      read tokens = ⟨.ok (list forms), [],
        (if last = 0 then [] else [.unclosed last]) ++ [.read forms.length]⟩ := by
  obtain ⟨current, around, hlast, htaken, hread⟩ := readInto_nesting h hreadable [] [] [] rfl
  refine ⟨closeAll current around, ?_, ?_⟩
  · rw [flattenEach_closeAll, htaken, hlast]
    rfl
  · rw [List.append_nil] at hread
    rw [read, hread]
    cases around with
    | nil =>
      subst hlast
      rfl
    | cons outer around =>
      rw [if_neg (by rw [← hlast]; exact Nat.succ_ne_zero _), ← hlast]
      rfl

/-- Where a closing parenthesis has no partner, a reading ends and leaves what comes after. -/
theorem read_unmatched (payload : Option String) (h : Nesting 0 front 0)
    (hreadable : ∀ token ∈ front, token.IsReadable) (rest : List Token) :
    ∃ forms, flattenEach forms = front.map Token.bare ∧
      read (front ++ .closing payload :: rest) =
        ⟨.ok (list forms), rest, [.unmatchedClosing rest.length, .read forms.length]⟩ := by
  obtain ⟨current, around, hlast, htaken, hread⟩ :=
    readInto_nesting h hreadable (.closing payload :: rest) [] [] rfl
  obtain rfl : around = [] := List.eq_nil_of_length_eq_zero hlast
  refine ⟨closeAll current [], ?_, ?_⟩
  · rw [flattenEach_closeAll, htaken]
    exact List.append_nil _
  · rw [read, hread]
    rfl

end

/-- **Reading loses nothing and doubles nothing.** The tokens of a program are read as that program,
to their end and without a warning. In the other direction, the program read from any readable
tokens has the tokens before the first closing parenthesis without partner, and what comes after
it is left; without such a parenthesis it has all the tokens, followed by a closing parenthesis for
each list that they leave open. Only payloads of parentheses, which scanned tokens lack, are
dropped. -/
theorem read_complete :
    (∀ forms, (∀ form ∈ forms, form.BuiltFrom Token.IsReadable) →
      (Supply.queue (flattenEach forms)).read.outcome = .ok (list forms) ∧
        (Supply.queue (flattenEach forms)).afterReading = .queue [] ∧
        (Supply.queue (flattenEach forms)).read.warnings = []) ∧
    ∀ tokens, (∀ token ∈ tokens, token.IsReadable) →
      (∀ front rest, FirstUnmatched tokens front rest → unclosed front = 0 ∧
        ∃ forms, (Supply.queue tokens).read.outcome = .ok (list forms) ∧
          flattenEach forms = front.map Token.bare ∧
          (Supply.queue tokens).afterReading = .queue rest) ∧
      (IsNested tokens →
        ∃ forms, (Supply.queue tokens).read.outcome = .ok (list forms) ∧
          flattenEach forms =
            tokens.map Token.bare ++ List.replicate (unclosed tokens) (.closing none) ∧
          (Supply.queue tokens).afterReading = .queue []) ∧
      (IsNested tokens ∨ ∃ front rest, FirstUnmatched tokens front rest) ∧
      ((∀ payload, .opening (some payload) ∉ tokens ∧ .closing (some payload) ∉ tokens) →
        ∀ token ∈ tokens, token.bare = token) := by
  constructor
  · intro forms hforms
    have hread : read (flattenEach forms) = ⟨.ok (list forms), [], [.read forms.length]⟩ :=
      read_flattenEach hforms
    exact ⟨congrArg Reading.outcome hread, Supply.afterReading_queue hread,
      congrArg Reading.warnings hread⟩
  · intro tokens hreadable
    refine ⟨?_, ?_, Token.isNested_or_firstUnmatched tokens, ?_⟩
    · intro front rest hfirst
      obtain ⟨payload, rfl, hnesting⟩ := Token.firstUnmatched_iff.mp hfirst
      obtain ⟨forms, hforms, hread⟩ := read_unmatched payload hnesting
        (fun token hmem => hreadable token (List.mem_append_left _ hmem)) rest
      exact ⟨hnesting.unclosed_eq, forms, congrArg Reading.outcome hread, hforms,
        Supply.afterReading_queue hread⟩
    · intro hnested
      obtain ⟨last, hnesting⟩ := Token.isNestedIn_iff_exists_nesting.mp hnested
      obtain ⟨forms, hforms, hread⟩ := read_nesting hnesting hreadable
      rw [← hnesting.unclosed_eq] at hforms
      exact ⟨forms, congrArg Reading.outcome hread, hforms, Supply.afterReading_queue hread⟩
    · intro hbare token hmem
      cases token with
      | opening payload =>
        cases payload with
        | none => rfl
        | some payload => exact absurd hmem (hbare payload).1
      | closing payload =>
        cases payload with
        | none => rfl
        | some payload => exact absurd hmem (hbare payload).2
      | number | word | unknown => rfl

end Tree

end PlusLisp
