import Mathlib.Data.List.Infix
import PlusLisp.Token

/-!
The nesting of tokens: how many lists are open, and which closing parentheses have a partner.

Partners are a matter of counting. A closing parenthesis lacks its own when it closes more lists
than have been opened (`IsNestedIn`). Where all have partners, tokens lead from one level to
another, one parenthesis at a time (`Nesting`); the two views agree
(`isNestedIn_iff_exists_nesting`). Any other tokens lead down to level 0 and on to a closing
parenthesis (`nesting_or_unmatched`), and one beginning of them goes as far as partners do
(`Reaches`).
-/

namespace PlusLisp.Token

/-! ### Counting -/

/-- Holds of the tokens that open a list. -/
def isOpening : Token → Bool
  | opening _ => true
  | _ => false

/-- Holds of the tokens that close a list. -/
def isClosing : Token → Bool
  | closing _ => true
  | _ => false

theorem parenthesis_or_inner (token : Token) :
    (∃ payload, token = .opening payload) ∨ (∃ payload, token = .closing payload) ∨
      token.isOpening = false ∧ token.isClosing = false := by
  cases token <;> simp [isOpening, isClosing]

/-- The number of lists that tokens open. -/
def openings (tokens : List Token) : Nat := tokens.countP isOpening

/-- The number of lists that tokens close. -/
def closings (tokens : List Token) : Nat := tokens.countP isClosing

theorem openings_cons (token : Token) (tokens : List Token) :
    openings (token :: tokens) = openings tokens + if token.isOpening then 1 else 0 :=
  List.countP_cons

theorem closings_cons (token : Token) (tokens : List Token) :
    closings (token :: tokens) = closings tokens + if token.isClosing then 1 else 0 :=
  List.countP_cons

/-- The number of lists that tokens leave open when all their closing parentheses have partners. -/
def unclosed (tokens : List Token) : Nat := openings tokens - closings tokens

/-- Every closing parenthesis among the tokens has a partner, given the number of lists open before
them: no beginning of them closes more lists than there are to close. -/
def IsNestedIn (level : Nat) (tokens : List Token) : Prop :=
  ∀ front, front <+: tokens → closings front ≤ level + openings front

/-- Every closing parenthesis among the tokens has a partner among them. -/
abbrev IsNested (tokens : List Token) : Prop := IsNestedIn 0 tokens

instance (level : Nat) (tokens : List Token) : Decidable (IsNestedIn level tokens) :=
  decidable_of_iff (∀ front ∈ tokens.inits, closings front ≤ level + openings front) <| by
    simp only [IsNestedIn, List.mem_inits]

/-- The first closing parenthesis without partner stands between two parts of the tokens. -/
structure FirstUnmatched (tokens front rest : List Token) : Prop where
  nested : IsNested front
  unmatched : ∃ payload, tokens = front ++ .closing payload :: rest ∧
    ¬ IsNested (front ++ [.closing payload])

/-! ### From level to level -/

/-- Tokens lead from one number of open lists to another and never close a list that is not
open. -/
inductive Nesting : Nat → List Token → Nat → Prop
  | nil {level : Nat} : Nesting level [] level
  | opening {level last : Nat} {payload : Option String} {tokens : List Token} :
      Nesting (level + 1) tokens last → Nesting level (.opening payload :: tokens) last
  | closing {level last : Nat} {payload : Option String} {tokens : List Token} :
      Nesting level tokens last → Nesting (level + 1) (.closing payload :: tokens) last
  | inner {level last : Nat} {token : Token} {tokens : List Token} :
      token.isOpening = false → token.isClosing = false → Nesting level tokens last →
        Nesting level (token :: tokens) last

section

variable {level last : Nat} {payload : Option String} {tokens rest front : List Token}

theorem Nesting.append {final : Nat} (h : Nesting level tokens last)
    (hrest : Nesting last rest final) : Nesting level (tokens ++ rest) final := by
  induction h with
  | nil => exact hrest
  | opening _ ih => exact .opening (ih hrest)
  | closing _ ih => exact .closing (ih hrest)
  | inner hopening hclosing _ ih => exact .inner hopening hclosing (ih hrest)

/-- The level changes by one for each parenthesis. -/
theorem Nesting.level_add_openings (h : Nesting level tokens last) :
    level + openings tokens = last + closings tokens := by
  induction h with
  | nil => rfl
  | opening _ ih | closing _ ih =>
    simp only [openings_cons, closings_cons, isOpening, isClosing, if_true, Bool.false_eq_true,
      if_false]
    omega
  | inner hopening hclosing _ ih =>
    simpa only [openings_cons, closings_cons, hopening, hclosing, Bool.false_eq_true, if_false,
      Nat.add_zero] using ih

theorem Nesting.unclosed_eq (h : Nesting 0 tokens last) : unclosed tokens = last := by
  have := h.level_add_openings
  unfold unclosed
  omega

/-- A beginning of nested tokens is nested. -/
theorem Nesting.of_append (h : Nesting level (front ++ rest) last) :
    ∃ middle, Nesting level front middle := by
  induction front generalizing level with
  | nil => exact ⟨level, .nil⟩
  | cons token front ih =>
    cases h with
    | opening h =>
      obtain ⟨middle, h⟩ := ih h
      exact ⟨middle, .opening h⟩
    | closing h =>
      obtain ⟨middle, h⟩ := ih h
      exact ⟨middle, .closing h⟩
    | inner hopening hclosing h =>
      obtain ⟨middle, h⟩ := ih h
      exact ⟨middle, .inner hopening hclosing h⟩

/-- Tokens are nested to their end, or they lead down to level 0 and on to a closing parenthesis
that has no partner there. -/
theorem nesting_or_unmatched (level : Nat) (tokens : List Token) :
    (∃ last, Nesting level tokens last) ∨
      ∃ front payload rest, tokens = front ++ .closing payload :: rest ∧ Nesting level front 0 := by
  induction tokens generalizing level with
  | nil => exact .inl ⟨level, .nil⟩
  | cons token tokens ih =>
    rcases token.parenthesis_or_inner with
      ⟨payload, rfl⟩ | ⟨payload, rfl⟩ | ⟨hopening, hclosing⟩
    · rcases ih (level + 1) with ⟨last, h⟩ | ⟨front, payload', rest, rfl, h⟩
      · exact .inl ⟨last, .opening h⟩
      · exact .inr ⟨.opening payload :: front, payload', rest, rfl, .opening h⟩
    · cases level with
      | zero => exact .inr ⟨[], payload, tokens, rfl, .nil⟩
      | succ level =>
        rcases ih level with ⟨last, h⟩ | ⟨front, payload', rest, rfl, h⟩
        · exact .inl ⟨last, .closing h⟩
        · exact .inr ⟨.closing payload :: front, payload', rest, rfl, .closing h⟩
    · rcases ih level with ⟨last, h⟩ | ⟨front, payload', rest, rfl, h⟩
      · exact .inl ⟨last, .inner hopening hclosing h⟩
      · exact .inr ⟨token :: front, payload', rest, rfl, .inner hopening hclosing h⟩

/-! ### Partners -/

/-- A closing parenthesis at level 0 has no partner. -/
theorem not_isNestedIn_of_nesting (h : Nesting level front 0) :
    ¬ IsNestedIn level (front ++ .closing payload :: rest) := by
  intro hnested
  have hprefix : front ++ [.closing payload] <+: front ++ .closing payload :: rest :=
    (List.prefix_append_right_inj front).mpr ⟨rest, rfl⟩
  have hcount := hnested _ hprefix
  have hlevel := h.level_add_openings
  simp only [openings, closings, List.countP_append, List.countP_singleton, isOpening, isClosing,
    if_true, Bool.false_eq_true, if_false] at hcount hlevel
  omega

/-- Closing parentheses have partners exactly when tokens lead from level to level. -/
theorem isNestedIn_iff_exists_nesting :
    IsNestedIn level tokens ↔ ∃ last, Nesting level tokens last := by
  constructor
  · intro hnested
    rcases nesting_or_unmatched level tokens with h | ⟨front, payload, rest, rfl, h⟩
    · exact h
    · exact absurd hnested (not_isNestedIn_of_nesting h)
  · rintro ⟨last, h⟩ front ⟨rest, rfl⟩
    obtain ⟨middle, h⟩ := h.of_append
    have := h.level_add_openings
    omega

/-- The tokens before the first closing parenthesis without partner leave no list open. -/
theorem firstUnmatched_iff :
    FirstUnmatched tokens front rest ↔
      ∃ payload, tokens = front ++ .closing payload :: rest ∧ Nesting 0 front 0 := by
  constructor
  · rintro ⟨hnested, payload, htokens, hunmatched⟩
    obtain ⟨last, h⟩ := isNestedIn_iff_exists_nesting.mp hnested
    cases last with
    | zero => exact ⟨payload, htokens, h⟩
    | succ last =>
      have hclosed : Nesting 0 (front ++ [.closing payload]) last := h.append (.closing .nil)
      exact absurd (isNestedIn_iff_exists_nesting.mpr ⟨last, hclosed⟩) hunmatched
  · rintro ⟨payload, htokens, h⟩
    exact ⟨isNestedIn_iff_exists_nesting.mpr ⟨0, h⟩, payload, htokens, not_isNestedIn_of_nesting h⟩

/-- Tokens are nested, or there is a first closing parenthesis without partner. -/
theorem isNested_or_firstUnmatched (tokens : List Token) :
    IsNested tokens ∨ ∃ front rest, FirstUnmatched tokens front rest := by
  rcases nesting_or_unmatched 0 tokens with h | ⟨front, payload, rest, htokens, h⟩
  · exact .inl (isNestedIn_iff_exists_nesting.mpr h)
  · exact .inr ⟨front, rest, firstUnmatched_iff.mpr ⟨payload, htokens, h⟩⟩

/-! ### Reach -/

/-- A beginning of the tokens goes as far as partners do: up to the first closing parenthesis
without one, or to the end if there is none. -/
inductive Reaches (tokens : List Token) : List Token → Prop
  | whole : IsNested tokens → Reaches tokens tokens
  | stopped {front rest : List Token} : FirstUnmatched tokens front rest → Reaches tokens front

theorem IsNestedIn.of_isPrefix (h : IsNestedIn level tokens) (hfront : front <+: tokens) :
    IsNestedIn level front :=
  fun _ hbefore => h _ (hbefore.trans hfront)

theorem Reaches.isPrefix (h : Reaches tokens front) : front <+: tokens := by
  cases h with
  | whole _ => exact List.prefix_rfl
  | stopped h =>
    obtain ⟨payload, rfl, -⟩ := h.unmatched
    exact List.prefix_append _ _

theorem Reaches.isNested (h : Reaches tokens front) : IsNested front := by
  cases h with
  | whole h => exact h
  | stopped h => exact h.nested

/-- A nested beginning is no longer than the one that goes as far as partners do. -/
theorem Reaches.prefix_of_isNested (h : Reaches tokens front) {nested : List Token}
    (hbefore : nested <+: tokens) (hnested : IsNested nested) : nested <+: front := by
  cases h with
  | whole _ => exact hbefore
  | @stopped _ rest h =>
    obtain ⟨payload, rfl, hunmatched⟩ := h.unmatched
    have hclosing : front ++ [.closing payload] <+: front ++ .closing payload :: rest :=
      (List.prefix_append_right_inj front).mpr ⟨rest, rfl⟩
    rcases List.prefix_or_prefix_of_prefix hbefore hclosing with hshort | hlong
    · rw [List.prefix_concat_iff] at hshort
      rcases hshort with rfl | hshort
      · exact absurd hnested hunmatched
      · exact hshort
    · exact absurd (hnested.of_isPrefix hlong) hunmatched

theorem Reaches.unique {other : List Token} (h : Reaches tokens front)
    (h' : Reaches tokens other) : front = other := by
  have hle := h'.prefix_of_isNested h.isPrefix h.isNested
  have hge := h.prefix_of_isNested h'.isPrefix h'.isNested
  exact hle.eq_of_length (Nat.le_antisymm hle.length_le hge.length_le)

theorem exists_reaches (tokens : List Token) : ∃ front, Reaches tokens front := by
  rcases isNested_or_firstUnmatched tokens with h | ⟨front, rest, h⟩
  · exact ⟨tokens, .whole h⟩
  · exact ⟨front, .stopped h⟩

end

end PlusLisp.Token
