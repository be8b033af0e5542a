import PlusLisp.Proofs.Token.Nesting

/-!
The levels of tokens. Every token that is no closing parenthesis starts something, a list or a leaf,
and its level is the number of lists that are open there (`levels`). Levels are defined by counting;
along nested tokens they can be told one token after the other (`levelsFrom_opening`,
`levelsFrom_closing`, `levelsFrom_inner`).
-/

namespace PlusLisp.Token

/-- The levels of the tokens that are no closing parentheses, in order: how many lists the tokens
before each of them leave open. -/
def levels (tokens : List Token) : List Nat :=
  (tokens.zip tokens.inits).filterMap fun (token, before) =>
    if token.isClosing then none else some (unclosed before)

/-- The levels of tokens that come after some lists have been opened. -/
def levelsFrom (level : Nat) (tokens : List Token) : List Nat :=
  (tokens.zip tokens.inits).filterMap fun (token, before) =>
    if token.isClosing then none else some (level + openings before - closings before)

theorem levels_eq (tokens : List Token) : levels tokens = levelsFrom 0 tokens := by
  simp only [levels, levelsFrom, unclosed, Nat.zero_add]

/-- The depth of the program that tokens make: two more than the deepest level, where the program
itself is one deep and what is on level 0 is two deep. -/
def depth (tokens : List Token) : Nat :=
  match (levels tokens).max? with
  | none => 1
  | some deepest => 2 + deepest

@[simp] theorem levelsFrom_nil (level : Nat) : levelsFrom level [] = [] := rfl

/-- The first token is on the level that tokens start from, and is counted for all others. -/
theorem levelsFrom_cons (level : Nat) (token : Token) (tokens : List Token) :
    levelsFrom level (token :: tokens) = (if token.isClosing then [] else [level]) ++
      (tokens.zip tokens.inits).filterMap fun (later, before) =>
        if later.isClosing then none
        else some (level + openings (token :: before) - closings (token :: before)) := by
  rw [levelsFrom, List.inits_cons, List.zip_cons_cons, List.zip_map_right, List.filterMap_cons,
    List.filterMap_map]
  by_cases hclosing : token.isClosing
  · simp only [hclosing]
    rfl
  · simp only [hclosing]
    rfl

section

variable {level last : Nat} {tokens : List Token}

@[simp] theorem levelsFrom_opening (level : Nat) (payload : Option String) (tokens : List Token) :
    levelsFrom level (.opening payload :: tokens) = level :: levelsFrom (level + 1) tokens := by
  have hcount (before : List Token) :
      level + openings (.opening payload :: before) - closings (.opening payload :: before) =
        level + 1 + openings before - closings before := by
    simp only [openings_cons, closings_cons, isOpening, isClosing, if_true, Bool.false_eq_true,
      if_false]
    omega
  rw [levelsFrom_cons]
  simp only [hcount]
  rfl

/-- A closing parenthesis is on no level, and leads back to the one around its list. -/
@[simp] theorem levelsFrom_closing (level : Nat) (payload : Option String) (tokens : List Token) :
    levelsFrom (level + 1) (.closing payload :: tokens) = levelsFrom level tokens := by
  have hcount (before : List Token) :
      level + 1 + openings (.closing payload :: before) - closings (.closing payload :: before) =
        level + openings before - closings before := by
    simp only [openings_cons, closings_cons, isOpening, isClosing, if_true, Bool.false_eq_true,
      if_false]
    omega
  rw [levelsFrom_cons]
  simp only [hcount]
  rfl

theorem levelsFrom_inner {token : Token} (hopening : token.isOpening = false)
    (hclosing : token.isClosing = false) (level : Nat) (tokens : List Token) :
    levelsFrom level (token :: tokens) = level :: levelsFrom level tokens := by
  rw [levelsFrom_cons]
  simp only [openings_cons, closings_cons, hopening, hclosing, Bool.false_eq_true, if_false,
    Nat.add_zero]
  rfl

/-- After nested tokens, levels go on from where these lead. -/
theorem levelsFrom_append (h : Nesting level tokens last) (rest : List Token) :
    levelsFrom level (tokens ++ rest) = levelsFrom level tokens ++ levelsFrom last rest := by
  induction h with
  | nil => rfl
  | opening _ ih =>
    rw [List.cons_append, levelsFrom_opening, levelsFrom_opening, ih, List.cons_append]
  | closing _ ih => rw [List.cons_append, levelsFrom_closing, levelsFrom_closing, ih]
  | inner hopening hclosing _ ih =>
    rw [List.cons_append, levelsFrom_inner hopening hclosing, levelsFrom_inner hopening hclosing,
      ih, List.cons_append]

/-- A list within nested tokens is one level further down. -/
theorem levelsFrom_list {body : List Token} (h : Nesting (level + 1) body (level + 1))
    (openingPayload closingPayload : Option String) (tokens : List Token) :
    levelsFrom level (.opening openingPayload :: (body ++ .closing closingPayload :: tokens)) =
      level :: (levelsFrom (level + 1) body ++ levelsFrom level tokens) := by
  rw [levelsFrom_opening, levelsFrom_append h, levelsFrom_closing]

end

end PlusLisp.Token
