import PlusLisp.Tree.Reader

/-!
Reading level by level. A level takes tokens up to its closing parenthesis, or all there are. An
opening parenthesis starts a level of its own, which has to end before the one around it goes on
(`descend`).

A reading keeps the levels that have not ended on a stack. What becomes of the stack once the
innermost level has ended is what the calls that wait for that level would do (`unwind`), and this
carries the induction over the tokens (`readInto_eq_unwind`).

Main statement: `read_eq_descend`.
-/

namespace PlusLisp.Tree

/-! ### Levels -/

/-- What a level ends with: its trees or the fault that stopped it, and the tokens that are left,
which are no more than those it was given. -/
structure Level (tokens : List Token) where
  outcome : Except Fault (List Tree)
  rest : List Token
  length_le : rest.length ≤ tokens.length

namespace Level

variable {tokens : List Token}

/-- A level that takes one more token before all others. -/
def after (token : Token) (level : Level tokens) : Level (token :: tokens) :=
  { level with length_le := Nat.le_succ_of_le level.length_le }

/-- A level that has one more tree before all others. -/
def push (tree : Tree) (level : Level tokens) : Level tokens :=
  { level with outcome := level.outcome.map (tree :: ·) }

end Level

/-- Take tokens for the trees of a level, and for those of the levels within it. -/
def descend : (tokens : List Token) → Level tokens
  | [] => ⟨.ok [], [], Nat.le_refl _⟩
  | token :: tokens =>
    Level.after token <|
      match token with
      | .opening _ =>
        match descend tokens with
        | ⟨.error fault, rest, length_le⟩ => ⟨.error fault, rest, length_le⟩
        | ⟨.ok children, rest, length_le⟩ =>
          let later := (descend rest).push (list children)
          { later with length_le := Nat.le_trans later.length_le length_le }
      | .closing _ => ⟨.ok [], tokens, Nat.le_refl _⟩
      | .number value =>
        if Signed64.InRange value then (descend tokens).push (number value)
        else ⟨.error (.integerOutOfRange value), tokens, Nat.le_refl _⟩
      | .word text => (descend tokens).push (word text)
      | .unknown kind _ => ⟨.error (.unknownToken kind), tokens, Nat.le_refl _⟩
termination_by tokens => tokens.length

/-! ### The stack of a reading -/

/-- What a reading ends with when its innermost level has ended with some trees or a fault and has
left some tokens. The trees of the open lists up to there stand newest first. A level that has ended
becomes a list of the level around it, which then goes on. -/
def unwind : Except Fault (List Tree) → List Token → List Tree → List (List Tree) →
    Except Fault Tree × List Token
  | .error fault, rest, _, _ => (.error fault, rest)
  | .ok trees, rest, current, [] => (.ok (list (current.reverse ++ trees)), rest)
  | .ok trees, rest, current, outer :: around =>
    unwind (descend rest).outcome (descend rest).rest (list (current.reverse ++ trees) :: outer)
      around

@[simp] theorem unwind_error (fault : Fault) (rest : List Token) (current : List Tree)
    (around : List (List Tree)) :
    unwind (.error fault) rest current around = (.error fault, rest) := by
  cases around <;> rfl

/-- It does not matter whether a tree is on the stack or among those that the level ends with. -/
theorem unwind_push (tree : Tree) (outcome : Except Fault (List Tree)) (rest : List Token)
    (current : List Tree) (around : List (List Tree)) :
    unwind (outcome.map (tree :: ·)) rest current around =
      unwind outcome rest (tree :: current) around := by
  cases outcome with
  | error fault => rw [Except.map, unwind_error, unwind_error]
  | ok trees =>
    have happend : (tree :: current).reverse ++ trees = current.reverse ++ tree :: trees := by
      rw [List.reverse_cons, List.append_assoc, List.singleton_append]
    cases around with
    | nil => rw [Except.map, unwind, unwind, happend]
    | cons outer around => rw [Except.map, unwind, unwind, happend]

/-- When the tokens have run out, all levels end at once. -/
theorem unwind_nil (current : List Tree) (around : List (List Tree)) :
    unwind (.ok []) [] current around = (.ok (list (closeAll current around)), []) := by
  induction around generalizing current with
  | nil => rw [unwind, List.append_nil, closeAll]
  | cons outer around ih => rw [unwind, descend, List.append_nil, ih, closeAll]

/-- A reading into open lists ends like the levels that its stack stands for. -/
theorem readInto_eq_unwind (tokens : List Token) (current : List Tree)
    (around : List (List Tree)) :
    ((readInto tokens current around).outcome, (readInto tokens current around).rest) =
      unwind (descend tokens).outcome (descend tokens).rest current around := by
  induction tokens generalizing current around with
  | nil =>
    rw [descend, unwind_nil]
    cases around <;> rfl
  | cons token tokens ih =>
    cases token with
    | opening payload =>
      rw [readInto, ih, descend]
      rcases descend tokens with ⟨fault | children, rest, length_le⟩
      · simp only [Level.after, unwind_error]
      · exact (unwind_push _ _ _ _ _).symm
    | closing payload =>
      cases around with
      | nil =>
        rw [descend, Level.after, unwind, List.append_nil]
        rfl
      | cons outer around =>
        rw [readInto, ih, descend, Level.after, unwind, List.append_nil]
    | number value =>
      by_cases hrange : Signed64.InRange value
      · simp only [readInto, descend, hrange, if_true, ih]
        exact (unwind_push _ _ _ _ _).symm
      · simp only [readInto, descend, hrange, if_false, Level.after, unwind_error]
    | word text =>
      rw [readInto, ih, descend]
      exact (unwind_push _ _ _ _ _).symm
    | unknown kind value => rw [readInto, descend, Level.after, unwind_error]

/-- **Reading with a stack is reading level by level.** A queue is read to the tree or to the fault
that its outermost level ends with, and it is left with the same tokens. -/
theorem read_eq_descend (tokens : List Token) :
    (Supply.queue tokens).read.outcome = (descend tokens).outcome.map list ∧
      (Supply.queue tokens).afterReading = .queue (descend tokens).rest := by
  have hread : ((read tokens).outcome, (read tokens).rest) =
      unwind (descend tokens).outcome (descend tokens).rest [] [] :=
    readInto_eq_unwind tokens [] []
  have houtermost (outcome : Except Fault (List Tree)) (rest : List Token) :
      unwind outcome rest [] [] = (outcome.map list, rest) := by
    cases outcome <;> rfl
  rw [houtermost] at hread
  obtain ⟨houtcome, hrest⟩ := Prod.mk.inj hread
  exact ⟨houtcome, congrArg Supply.queue hrest⟩

end PlusLisp.Tree
