import Mathlib.Order.Bounds.Basic
import PlusLisp.Proofs.Audit.Balance
import PlusLisp.Proofs.Token.Balanced

/-!
The check of the parentheses is exact. It finds nothing in balanced tokens only, it finds the
closing parentheses at which tokens have closed more lists than ever before (`IsPeak`), and it finds
as many faults as there are parentheses to insert or to delete.

No edit does more than one finding's worth: a parenthesis more or less changes the number of
parentheses without partner (`unpaired`) by exactly one, wherever it stands (`Edit.isNeighbour`).

Main statement: `Audit.balance_exact`.
-/

namespace PlusLisp

namespace Token

/-! ### Peaks -/

/-- How many more lists tokens close than they open. -/
def excess (tokens : List Token) : Int := closings tokens - openings tokens

/-- The token at an index is a closing parenthesis with which more lists have been closed than
opened, by a greater number than at any time before. -/
structure IsPeak (tokens : List Token) (index : Nat) : Prop where
  closing : ∃ payload, tokens[index]? = some (.closing payload)
  positive : 0 < excess (tokens.take (index + 1))
  highest : ∀ shorter ≤ index, excess (tokens.take shorter) < excess (tokens.take (index + 1))

theorem excess_append (tokens others : List Token) :
    excess (tokens ++ others) = excess tokens + excess others := by
  simp only [excess, closings, openings, List.countP_append]
  omega

section

variable {level last index : Nat} {front rest tokens : List Token} {payload : Option String}

/-- Nested tokens never close more lists than they open. -/
theorem Nesting.excess_le (h : Nesting 0 tokens last) {before : List Token}
    (hbefore : before <+: tokens) : excess before ≤ 0 := by
  have hcount := isNestedIn_iff_exists_nesting.mpr ⟨last, h⟩ before hbefore
  unfold excess
  omega

theorem Nesting.not_isPeak (h : Nesting 0 tokens last) : ¬ IsPeak tokens index :=
  fun hpeak => Int.not_lt.mpr (h.excess_le (List.take_prefix _ _)) hpeak.positive

/-- Beyond a closing parenthesis without partner, one more list has been closed than opened. -/
theorem Nesting.excess_beyond (h : Nesting 0 front 0) (payload : Option String)
    (rest : List Token) (count : Nat) :
    excess ((front ++ .closing payload :: rest).take (count + (front.length + 1))) =
      1 + excess (rest.take count) := by
  have hfront : excess front = 0 := by
    have := h.level_add_openings
    unfold excess
    omega
  have hclosing : excess [.closing payload] = 1 := rfl
  have hlength :
      count + (front.length + 1) = (front ++ [Token.closing payload]).length + count := by
    rw [List.length_append, List.length_singleton, Nat.add_comm]
  rw [List.append_cons, hlength, List.take_length_add_append, excess_append, excess_append, hfront,
    hclosing, Int.zero_add]

/-- What comes before a closing parenthesis without partner closes no list too many. -/
theorem Nesting.excess_before (h : Nesting 0 front 0) {count : Nat}
    (hcount : count ≤ front.length) : excess ((front ++ rest).take count) ≤ 0 := by
  rw [List.take_append_of_le_length hcount]
  exact h.excess_le (List.take_prefix _ _)

/-- The first closing parenthesis without partner is a peak. -/
theorem Nesting.isPeak_first (h : Nesting 0 front 0) (payload : Option String) (rest : List Token) :
    IsPeak (front ++ .closing payload :: rest) front.length := by
  have hexcess : excess ((front ++ .closing payload :: rest).take (front.length + 1)) = 1 := by
    have hbeyond := h.excess_beyond payload rest 0
    rwa [Nat.zero_add] at hbeyond
  refine ⟨⟨payload, ?_⟩, ?_, ?_⟩
  · rw [List.getElem?_append_right (Nat.le_refl _), Nat.sub_self]
    rfl
  · rw [hexcess]
    exact Int.one_pos
  · intro shorter hshorter
    rw [hexcess]
    exact Int.lt_of_le_of_lt (h.excess_before hshorter) Int.one_pos

/-- The peaks beyond the first one are those of the tokens after it. -/
theorem Nesting.isPeak_beyond (h : Nesting 0 front 0) (payload : Option String)
    (rest : List Token) (index : Nat) :
    IsPeak (front ++ .closing payload :: rest) (index + (front.length + 1)) ↔
      IsPeak rest index := by
  have hget : (front ++ .closing payload :: rest)[index + (front.length + 1)]? = rest[index]? := by
    rw [List.getElem?_append_right (by omega)]
    have hindex : index + (front.length + 1) - front.length = index + 1 := by omega
    rw [hindex, List.getElem?_cons_succ]
  have hexcess : excess ((front ++ .closing payload :: rest).take
      (index + (front.length + 1) + 1)) = 1 + excess (rest.take (index + 1)) := by
    rw [← h.excess_beyond payload rest (index + 1), Nat.add_right_comm]
  constructor
  · rintro ⟨hclosing, -, hhighest⟩
    have hlow (shorter : Nat) (hshorter : shorter ≤ index) :
        excess (rest.take shorter) < excess (rest.take (index + 1)) := by
      have := hhighest (shorter + (front.length + 1)) (Nat.add_le_add_right hshorter _)
      rw [h.excess_beyond, hexcess] at this
      omega
    exact ⟨hget ▸ hclosing, hlow 0 (Nat.zero_le _), hlow⟩
  · rintro ⟨hclosing, hpositive, hhighest⟩
    refine ⟨hget ▸ hclosing, by rw [hexcess]; omega, ?_⟩
    intro shorter hshorter
    rw [hexcess]
    rcases Nat.lt_or_ge front.length shorter with hbeyond | hbefore
    · obtain ⟨count, rfl⟩ := Nat.exists_eq_add_of_le' hbeyond
      rw [h.excess_beyond]
      have := hhighest count (Nat.le_of_add_le_add_right hshorter)
      omega
    · have := @Nesting.excess_before _ (.closing payload :: rest) h _ hbefore
      omega

end

/-! ### Edits -/

/-- The second tokens have one parenthesis more than the first. -/
inductive Inserts : List Token → List Token → Prop
  | parenthesis {token : Token} (front rest : List Token) :
      token.isOpening = true ∨ token.isClosing = true →
        Inserts (front ++ rest) (front ++ token :: rest)

/-- One parenthesis is inserted or deleted. -/
def Edit (before after : List Token) : Prop := Inserts before after ∨ Inserts after before

/-- Tokens are turned into others by a number of edits. -/
inductive Edits : Nat → List Token → List Token → Prop
  | refl (tokens : List Token) : Edits 0 tokens tokens
  | step {count : Nat} {before between after : List Token} : Edit before between →
      Edits count between after → Edits (count + 1) before after

theorem Inserts.append_left {before after : List Token} (h : Inserts before after)
    (front : List Token) : Inserts (front ++ before) (front ++ after) := by
  cases h with
  | parenthesis inside rest htoken =>
    rw [← List.append_assoc, ← List.append_assoc]
    exact .parenthesis (front ++ inside) rest htoken

theorem Edits.append_left {count : Nat} {before after : List Token} (h : Edits count before after)
    (front : List Token) : Edits count (front ++ before) (front ++ after) := by
  induction h with
  | refl => exact .refl _
  | step hedit _ ih => exact .step (hedit.imp (·.append_left front) (·.append_left front)) ih

/-- Lists that are left open can be closed at the end, by one edit for each. -/
theorem Nesting.exists_edits {tokens : List Token} {last : Nat} (h : Nesting 0 tokens last) :
    ∃ target, Edits last tokens target ∧ Nesting 0 target 0 := by
  induction last generalizing tokens with
  | zero => exact ⟨tokens, .refl tokens, h⟩
  | succ last ih =>
    have hclosed : Nesting 0 (tokens ++ [.closing none]) last := h.append (.closing .nil)
    obtain ⟨target, hedits, htarget⟩ := ih hclosed
    have hinserts : Inserts (tokens ++ []) (tokens ++ .closing none :: []) :=
      .parenthesis tokens [] (.inr rfl)
    rw [List.append_nil] at hinserts
    exact ⟨target, .step (.inl hinserts) hedits, htarget⟩

/-! ### Parentheses without partner -/

/-- The number of parentheses without partner among the tokens and the lists open before them. -/
def unpaired : Nat → List Token → Nat
  | level, [] => level
  | level, .opening _ :: tokens => unpaired (level + 1) tokens
  | 0, .closing _ :: tokens => unpaired 0 tokens + 1
  | level + 1, .closing _ :: tokens => unpaired level tokens
  | level, _ :: tokens => unpaired level tokens

theorem unpaired_inner {token : Token} (hopening : token.isOpening = false)
    (hclosing : token.isClosing = false) (level : Nat) (tokens : List Token) :
    unpaired level (token :: tokens) = unpaired level tokens := by
  cases token with
  | opening payload => cases hopening
  | closing payload => cases hclosing
  | number | word | unknown => rw [unpaired] <;> simp

theorem unpaired_nesting {level last : Nat} {tokens : List Token} (h : Nesting level tokens last)
    (rest : List Token) : unpaired level (tokens ++ rest) = unpaired last rest := by
  induction h with
  | nil => rfl
  | opening _ ih | closing _ ih => rw [List.cons_append, unpaired, ih]
  | inner hopening hclosing _ ih => rw [List.cons_append, unpaired_inner hopening hclosing, ih]

/-- Two numbers differ by one. -/
def IsNeighbour (m n : Nat) : Prop := m = n + 1 ∨ n = m + 1

/-- An open list more leaves one parenthesis more without partner, or gives one to a closing
parenthesis that would have none. -/
theorem isNeighbour_unpaired_succ (level : Nat) (tokens : List Token) :
    IsNeighbour (unpaired (level + 1) tokens) (unpaired level tokens) := by
  induction tokens generalizing level with
  | nil => exact .inl rfl
  | cons token tokens ih =>
    rcases token.parenthesis_or_inner with
      ⟨payload, rfl⟩ | ⟨payload, rfl⟩ | ⟨hopening, hclosing⟩
    · exact ih (level + 1)
    · cases level with
      | zero => exact .inr rfl
      | succ level => exact ih level
    · rw [unpaired_inner hopening hclosing, unpaired_inner hopening hclosing]
      exact ih level

theorem isNeighbour_unpaired_cons {token : Token}
    (htoken : token.isOpening = true ∨ token.isClosing = true) (level : Nat) (rest : List Token) :
    IsNeighbour (unpaired level (token :: rest)) (unpaired level rest) := by
  rcases token.parenthesis_or_inner with
    ⟨payload, rfl⟩ | ⟨payload, rfl⟩ | ⟨hopening, hclosing⟩
  · exact isNeighbour_unpaired_succ level rest
  · cases level with
    | zero => exact .inl rfl
    | succ level => exact (isNeighbour_unpaired_succ level rest).symm
  · simp [hopening, hclosing] at htoken

theorem isNeighbour_unpaired_append {before after : List Token}
    (h : ∀ level, IsNeighbour (unpaired level after) (unpaired level before)) (front : List Token)
    (level : Nat) :
    IsNeighbour (unpaired level (front ++ after)) (unpaired level (front ++ before)) := by
  induction front generalizing level with
  | nil => exact h level
  | cons token front ih =>
    rw [List.cons_append, List.cons_append]
    rcases token.parenthesis_or_inner with
      ⟨payload, rfl⟩ | ⟨payload, rfl⟩ | ⟨hopening, hclosing⟩
    · exact ih (level + 1)
    · cases level with
      | zero => exact (ih 0).imp (congrArg (· + 1)) (congrArg (· + 1))
      | succ level => exact ih level
    · rw [unpaired_inner hopening hclosing, unpaired_inner hopening hclosing]
      exact ih level

theorem Inserts.isNeighbour {before after : List Token} (h : Inserts before after) :
    IsNeighbour (unpaired 0 after) (unpaired 0 before) := by
  cases h with
  | parenthesis front rest htoken =>
    exact isNeighbour_unpaired_append (fun level => isNeighbour_unpaired_cons htoken level rest)
      front 0

/-- An edit changes the number of parentheses without partner by one. -/
theorem Edit.isNeighbour {before after : List Token} (h : Edit before after) :
    IsNeighbour (unpaired 0 after) (unpaired 0 before) :=
  h.elim Inserts.isNeighbour fun h => h.isNeighbour.symm

/-- There are no fewer edits than parentheses that get a partner or vanish. -/
theorem Edits.unpaired_le {count : Nat} {before after : List Token} (h : Edits count before after) :
    unpaired 0 before ≤ count + unpaired 0 after := by
  induction h with
  | refl => exact Nat.le_add_left _ _
  | step hedit _ ih =>
    rcases hedit.isNeighbour with hmore | hless <;> omega

end Token

/-! ### Cuts -/

open Token (Nesting IsPeak Balanced Edits unpaired)

section

variable {tokens : List Token} {unmatched : List Nat} {unclosed : Nat}

/-- The closing parentheses without partner are the peaks. -/
theorem Cut.mem_iff_isPeak (h : Cut tokens unmatched unclosed) (index : Nat) :
    index ∈ unmatched ↔ IsPeak tokens index := by
  induction h generalizing index with
  | last h => exact iff_of_false (List.not_mem_nil) h.not_isPeak
  | @unmatched front rest payload unmatched unclosed h _ ih =>
    rw [List.mem_cons, List.mem_map]
    rcases Nat.lt_trichotomy index front.length with hbefore | rfl | hbeyond
    · refine iff_of_false ?_ ?_
      · rintro (rfl | ⟨place, -, rfl⟩) <;> omega
      · intro hpeak
        exact Int.not_lt.mpr (h.excess_before hbefore) hpeak.positive
    · exact iff_of_true (.inl rfl) (h.isPeak_first payload rest)
    · obtain ⟨place, rfl⟩ := Nat.exists_eq_add_of_le' hbeyond
      rw [h.isPeak_beyond, ← ih]
      constructor
      · rintro (hplace | ⟨other, hother, hplace⟩)
        · omega
        · obtain rfl : other = place := Nat.add_right_cancel hplace
          exact hother
      · exact fun hplace => .inr ⟨place, hplace, rfl⟩

theorem Cut.increasing (h : Cut tokens unmatched unclosed) : unmatched.Pairwise (· < ·) := by
  induction h with
  | last _ => exact .nil
  | unmatched _ _ ih =>
    refine List.pairwise_cons.mpr ⟨?_, List.pairwise_map.mpr ?_⟩
    · intro place hmem
      obtain ⟨index, -, rfl⟩ := List.mem_map.mp hmem
      omega
    · exact ih.imp fun hlt => Nat.add_lt_add_right hlt _

theorem Cut.unpaired_eq (h : Cut tokens unmatched unclosed) :
    unpaired 0 tokens = unmatched.length + unclosed := by
  induction h with
  | @last tokens unclosed h =>
    rw [← List.append_nil tokens, Token.unpaired_nesting h, Token.unpaired, List.length_nil,
      Nat.zero_add]
  | unmatched h _ ih =>
    rw [Token.unpaired_nesting h, Token.unpaired, ih, List.length_cons, List.length_map,
      Nat.add_right_comm]

/-- Tokens are repaired by deleting closing parentheses without partner and closing lists. -/
theorem Cut.exists_edits (h : Cut tokens unmatched unclosed) :
    ∃ target, Edits (unmatched.length + unclosed) tokens target ∧ Nesting 0 target 0 := by
  induction h with
  | last h =>
    rw [List.length_nil, Nat.zero_add]
    exact h.exists_edits
  | @unmatched front rest payload _ _ h _ ih =>
    obtain ⟨target, hedits, htarget⟩ := ih
    have hdelete : Token.Edit (front ++ .closing payload :: rest) (front ++ rest) :=
      .inr (.parenthesis front rest (.inr rfl))
    rw [List.length_cons, List.length_map, Nat.add_right_comm]
    exact ⟨front ++ target, .step hdelete (hedits.append_left front), h.append htarget⟩

end

namespace Audit

/-- **The check of the parentheses is exact** on all tokens. It finds nothing exactly in balanced
tokens. A closing parenthesis is found exactly at the peaks, in order of their indices, and lists
left open are found at most once, at last. The least number of parentheses to be inserted or deleted
until nothing is found is the number of findings on closing parentheses and of lists left open. -/
theorem balance_exact (tokens : List Token) :
    (balance tokens = [] ↔ Balanced tokens) ∧
      (∀ index, .unmatchedClosing index ∈ balance tokens ↔ IsPeak tokens index) ∧
      balance tokens = report (unmatchedIn (balance tokens)) (unclosedIn (balance tokens)) ∧
      (unmatchedIn (balance tokens)).Pairwise (· < ·) ∧
      IsLeast {count | ∃ target, Edits count tokens target ∧ balance target = []}
        ((unmatchedIn (balance tokens)).length + unclosedIn (balance tokens)) := by
  obtain ⟨unmatched, unclosed, hcut⟩ := exists_cut tokens
  refine ⟨balance_eq_nil_iff_nesting.trans Token.balanced_iff_nesting.symm, ?_⟩
  rw [balance_cut hcut, unmatchedIn_report, unclosedIn_report]
  refine ⟨?_, rfl, hcut.increasing, ?_, ?_⟩
  · intro index
    rw [← hcut.mem_iff_isPeak, report]
    by_cases h : unclosed = 0 <;> simp [h]
  · obtain ⟨target, hedits, htarget⟩ := hcut.exists_edits
    exact ⟨target, hedits, balance_eq_nil_iff_nesting.mpr htarget⟩
  · rintro count ⟨target, hedits, htarget⟩
    have hpaired : unpaired 0 target = 0 := by
      have hnesting := balance_eq_nil_iff_nesting.mp htarget
      rw [← List.append_nil target, Token.unpaired_nesting hnesting, Token.unpaired]
    have hle := hedits.unpaired_le
    rwa [hcut.unpaired_eq, hpaired, Nat.add_zero] at hle

end Audit

end PlusLisp
