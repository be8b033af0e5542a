import PlusLisp.Program
import PlusLisp.Proofs.Audit.Soundness
import PlusLisp.Proofs.Token.Levels
import PlusLisp.Proofs.Tree.Derivation

/-!
The check of the operands, told from the tokens of a program. It finds something exactly when some
opening parenthesis opens a list that starts with the word `+` and has fewer than two further
members, or when the program itself starts like that (`Audit.arity_read`).

The last case is one that a run does not share: the outermost list of a program is always a
sequence, whatever its first member, so that the program `+ 1` is run without a fault, and yet there
is a finding on it (`Audit.arity_bareSum`).
-/

namespace PlusLisp

namespace Token

/-! ### Lists among tokens -/

/-- An opening parenthesis among the tokens opens a list with the given tokens inside. They go up to
the partner of the parenthesis, or to the end of the tokens if it has none. -/
def Opens (tokens body : List Token) : Prop :=
  ∃ before payload after, tokens = before ++ .opening payload :: after ∧ Reaches after body

/-- The tokens inside a list are those of a sum with fewer than two operands: the first is the word
`+`, and there are no three members. A member starts with each token that is on level 0. -/
structure IsShortSum (body : List Token) : Prop where
  head : body.head? = some (.word (some "+"))
  few : (levels body).count 0 < 3

section

variable {token : Token} {tokens body front : List Token}

theorem reaches_iff (h : Reaches tokens front) : Reaches tokens body ↔ body = front :=
  ⟨fun h' => h'.unique h, fun hbody => hbody ▸ h⟩

theorem not_opens_nil : ¬ Opens [] body := by
  rintro ⟨before, payload, after, htokens, -⟩
  cases before <;> cases htokens

theorem opens_opening (payload : Option String) :
    Opens (.opening payload :: tokens) body ↔ Reaches tokens body ∨ Opens tokens body := by
  constructor
  · rintro ⟨before, payload', after, htokens, hreaches⟩
    cases before with
    | nil =>
      cases htokens
      exact .inl hreaches
    | cons token before =>
      cases htokens
      exact .inr ⟨before, payload', after, rfl, hreaches⟩
  · rintro (hreaches | ⟨before, payload', after, rfl, hreaches⟩)
    · exact ⟨[], payload, tokens, rfl, hreaches⟩
    · exact ⟨.opening payload :: before, payload', after, rfl, hreaches⟩

theorem opens_cons (hopening : token.isOpening = false) :
    Opens (token :: tokens) body ↔ Opens tokens body := by
  constructor
  · rintro ⟨before, payload, after, htokens, hreaches⟩
    cases before with
    | nil =>
      cases htokens
      cases hopening
    | cons _ before =>
      cases htokens
      exact ⟨before, payload, after, rfl, hreaches⟩
  · rintro ⟨before, payload, after, rfl, hreaches⟩
    exact ⟨token :: before, payload, after, rfl, hreaches⟩

end

end Token

namespace Tree

open Token (Opens Reaches IsShortSum)

section

variable {opened : Nat} {tokens body rest : List Token} {trees : List Tree}

theorem Derives.reaches (h : Derives opened tokens trees) : Reaches tokens tokens :=
  .whole (Token.isNestedIn_iff_exists_nesting.mpr ⟨_, h.nesting 0⟩)

theorem Derives.reaches_closing (h : Derives 0 tokens trees) (payload : Option String)
    (rest : List Token) : Reaches (tokens ++ .closing payload :: rest) tokens :=
  .stopped (Token.firstUnmatched_iff.mpr ⟨payload, rfl, h.nesting 0⟩)

/-- Lists that are opened within tokens that leave none open lie within these tokens. -/
theorem Derives.opens_append (h : Derives opened tokens trees) (hopened : opened = 0)
    (rest : List Token) : Opens (tokens ++ rest) body ↔ Opens tokens body ∨ Opens rest body := by
  induction h generalizing rest with
  | nil => exact (or_iff_right Token.not_opens_nil).symm
  | leaf hleaf _ ih =>
    rw [List.cons_append, Token.opens_cons hleaf.isOpening_eq, Token.opens_cons hleaf.isOpening_eq,
      ih hopened]
  | @closed payload payload' _ inside tokens children trees hinside _ ihinside ih =>
    rw [List.cons_append, List.append_assoc, List.cons_append, Token.opens_opening,
      Token.opens_opening, Token.reaches_iff (hinside.reaches_closing payload' _),
      Token.reaches_iff (hinside.reaches_closing payload' _), ihinside rfl, ihinside rfl,
      Token.opens_cons rfl, Token.opens_cons rfl, ih hopened, or_assoc, or_assoc]
  | unclosed => cases hopened

/-- A list in parentheses, and the lists that are opened inside it and after it. -/
theorem Derives.opens_closed (h : Derives 0 tokens trees) (payload payload' : Option String)
    (rest : List Token) :
    Opens (.opening payload :: (tokens ++ .closing payload' :: rest)) body ↔
      body = tokens ∨ Opens tokens body ∨ Opens rest body := by
  rw [Token.opens_opening, Token.reaches_iff (h.reaches_closing payload' rest),
    h.opens_append rfl, Token.opens_cons rfl]

/-! ### Sums -/

/-- Levels within a list are below the level of the list. -/
theorem Derives.le_of_mem_levelsFrom (h : Derives opened tokens trees) {level k : Nat}
    (hk : k ∈ Token.levelsFrom level tokens) : level ≤ k := by
  induction h generalizing level with
  | nil => cases hk
  | leaf hleaf _ ih =>
    rw [Token.levelsFrom_inner hleaf.isOpening_eq hleaf.isClosing_eq, List.mem_cons] at hk
    rcases hk with rfl | hk
    · exact Nat.le_refl _
    · exact ih hk
  | closed _ _ hbody _ ihbody ih =>
    rw [Token.levelsFrom_list (hbody.nesting _), List.mem_cons, List.mem_append] at hk
    rcases hk with rfl | hk | hk
    · exact Nat.le_refl _
    · exact Nat.le_of_succ_le (ihbody hk)
    · exact ih hk
  | unclosed _ _ ih =>
    rw [Token.levelsFrom_opening, List.mem_cons] at hk
    rcases hk with rfl | hk
    · exact Nat.le_refl _
    · exact Nat.le_of_succ_le (ih hk)

theorem Derives.count_levelsFrom_succ (h : Derives opened tokens trees) (level : Nat) :
    (Token.levelsFrom (level + 1) tokens).count level = 0 :=
  List.count_eq_zero.mpr fun hmem => Nat.not_succ_le_self level (h.le_of_mem_levelsFrom hmem)

/-- There is a tree for each token on the level that the tokens start from. -/
theorem Derives.count_levelsFrom (h : Derives opened tokens trees) (level : Nat) :
    (Token.levelsFrom level tokens).count level = trees.length := by
  induction h generalizing level with
  | nil => rfl
  | leaf hleaf _ ih =>
    rw [Token.levelsFrom_inner hleaf.isOpening_eq hleaf.isClosing_eq, List.count_cons_self, ih,
      List.length_cons]
  | closed _ _ hbody _ _ ih =>
    rw [Token.levelsFrom_list (hbody.nesting _), List.count_cons_self, List.count_append,
      hbody.count_levelsFrom_succ, Nat.zero_add, ih, List.length_cons]
  | unclosed _ hbody _ =>
    rw [Token.levelsFrom_opening, List.count_cons_self, hbody.count_levelsFrom_succ]
    rfl

/-- Derived trees are the members of a sum when the first of their tokens is the word `+`. -/
theorem Derives.formOf_eq_sum_iff (h : Derives opened tokens trees) :
    formOf trees = .sum ↔ tokens.head? = some (.word (some "+")) := by
  cases h with
  | nil | closed | unclosed => simp [formOf, list, wordText?]
  | leaf hleaf _ =>
    cases hleaf with
    | number => simp [formOf, number, wordText?]
    | @word text => by_cases htext : text = some "+" <;> simp [formOf, word, wordText?, htext]

end

end Tree

namespace Audit

open Token (Opens Reaches IsShortSum)
open PlusLisp.Tree (Derives formOf subtreesEach)

/-- There is a finding on a list exactly when evaluation takes it for a sum, and its operands are
too few. -/
theorem shortSum?_ne_none_iff {value : Option String} {members : List Tree} :
    shortSum? (.node (.list value) members) ≠ none ↔
      formOf members = .sum ∧ members.length < 3 := by
  constructor
  · intro h
    cases members with
    | nil => exact absurd rfl h
    | cons head operands =>
      by_cases hshort : head.wordText? = some (some "+") ∧ operands.length < 2
      · exact ⟨by simp [formOf, hshort.1], Nat.succ_lt_succ hshort.2⟩
      · exact absurd (if_neg hshort) h
  · rintro ⟨hsum, hshort⟩
    rw [shortSum?_eq_some hsum hshort]
    exact Option.some_ne_none _

section

variable {opened : Nat} {tokens taken body rest : List Token} {tree : Tree} {trees : List Tree}

theorem isShortSum_iff (h : Derives opened tokens trees) :
    shortSum? (.list trees) ≠ none ↔ IsShortSum tokens := by
  rw [Tree.list, shortSum?_ne_none_iff, h.formOf_eq_sum_iff, ← h.count_levelsFrom 0,
    ← Token.levels_eq]
  exact ⟨fun h => ⟨h.1, h.2⟩, fun h => ⟨h.head, h.few⟩⟩

/-- There is a finding below derived trees exactly when a list with too few operands is opened among
their tokens. -/
theorem exists_shortSum_iff (h : Derives opened tokens trees) :
    (∃ tree ∈ subtreesEach trees, shortSum? tree ≠ none) ↔
      ∃ body, Opens tokens body ∧ IsShortSum body := by
  induction h with
  | nil => simp [subtreesEach, Token.not_opens_nil]
  | leaf hleaf _ ih =>
    simp only [Token.opens_cons hleaf.isOpening_eq, ← ih]
    cases hleaf <;>
      simp [subtreesEach, Tree.number, Tree.word, Tree.subtrees, shortSum?]
  | closed payload payload' hbody _ ihbody ih =>
    simp only [hbody.opens_closed payload payload', or_and_right, exists_or, exists_eq_left,
      ← isShortSum_iff hbody, ← ihbody, ← ih, subtreesEach, Tree.list, Tree.subtrees,
      List.mem_append, List.mem_cons, or_assoc]
  | unclosed payload hbody ih =>
    simp only [Token.opens_opening, Token.reaches_iff hbody.reaches, or_and_right, exists_or,
      exists_eq_left, ← isShortSum_iff hbody, ← ih, subtreesEach, Tree.list, Tree.subtrees,
      List.mem_append, List.mem_cons, List.not_mem_nil, or_false]

/-- A run comes upon a sum without its operands only below a form of the program, and there it is
a finding. -/
theorem exists_shortSum_of_runProgram {evaluator : Evaluator} {given : Nat}
    (h : (evaluator.runProgram (.list trees)).outcome = .error (.missingOperands given)) :
    ∃ sub ∈ subtreesEach trees, shortSum? sub = some (.missingOperands given) := by
  rw [show evaluator.runProgram (.list trees) = evaluator.enter .program (.list trees) from rfl,
    Evaluator.enter_eq_follow] at h
  -- No limit words its fault like this, and the root is a sequence whatever its first member.
  obtain hlimit | hcourse := Limits.follow_eq_error h
  · simp [Fault.ownFamily] at hlimit
  rw [Tree.list, Entry.course, Course.outcome_note] at hcourse
  simp only [Course.outcome_bind_eq_error, Course.outcome_note, Course.outcome_pure, reduceCtorEq,
    and_false, exists_false, or_false] at hcourse
  obtain ⟨form, hform, hcause⟩ := Tree.cause_of_courseEach trees 0 _ hcourse
  rw [Tree.subtreesEach_eq_flatMap]
  cases hcause with
  | missingOperands hmem hsum hshort =>
    exact ⟨_, List.mem_flatMap.mpr ⟨form, hform, hmem⟩, shortSum?_eq_some hsum hshort⟩

theorem arity_ne_nil_iff : arity tree ≠ [] ↔ ∃ sub ∈ tree.subtrees, shortSum? sub ≠ none := by
  rw [arity_eq, Ne, List.filterMap_eq_nil_iff]
  push Not
  rfl

/-- **The check of the operands can be told from the tokens that were taken.** It finds something
exactly when one of their opening parentheses opens a list that starts with the word `+` and has
fewer than two further members, or when the program as a whole is such a list. A run that is stopped
for missing operands has come upon a list of the first kind, since to a run the program as a whole
is never a sum. -/
theorem arity_read (hread : (Supply.queue tokens).read.outcome = .ok tree)
    (hrest : (Supply.queue tokens).afterReading = .queue rest) (htaken : tokens = taken ++ rest) :
    (arity tree ≠ [] ↔
      (∃ body, Opens taken body ∧ IsShortSum body) ∨
        ∃ body, Reaches taken body ∧ IsShortSum body) ∧
    ∀ evaluator given,
      (Evaluator.runProgram evaluator tree).outcome = .error (.missingOperands given) →
        ∃ body, Opens taken body ∧ IsShortSum body := by
  obtain ⟨forms, body, opened, rfl, hbody, hends⟩ :=
    Tree.exists_derivation hread (Supply.queue.inj hrest) htaken
  have hreaches : Reaches taken body := by
    rcases hends with rfl | ⟨rfl, payload, rfl⟩
    · exact hbody.reaches
    · exact hbody.reaches_closing payload []
  -- The parenthesis that ended the reading opens nothing.
  have hopens (inside : List Token) : Opens taken inside ↔ Opens body inside := by
    rcases hends with rfl | ⟨rfl, payload, rfl⟩
    · rfl
    · rw [hbody.opens_append rfl, Token.opens_cons rfl, or_iff_left Token.not_opens_nil]
  simp only [hopens, Token.reaches_iff hreaches, exists_eq_left, ← isShortSum_iff hbody,
    ← exists_shortSum_iff hbody]
  constructor
  · simp only [arity_ne_nil_iff, Tree.list, Tree.subtrees, List.mem_cons, or_and_right, exists_or,
      exists_eq_left]
    exact or_comm
  · intro evaluator given hrun
    obtain ⟨sub, hmem, hshort⟩ := exists_shortSum_of_runProgram hrun
    exact ⟨sub, hmem, hshort ▸ Option.some_ne_none _⟩

end

/-- The tokens of `(a (+ 1`, in which the list of the sum is not closed. -/
theorem arity_read_unclosed :
    (Supply.queue ([.opening none, .word (some "a"), .opening none, .word (some "+"),
        .number 1] ++ [])).read.outcome =
        .ok (.list [.list [.word (some "a"), .list [.word (some "+"), .number 1]]]) ∧
      arity (.list [.list [.word (some "a"), .list [.word (some "+"), .number 1]]]) ≠ [] :=
  have hopens : Opens [.opening none, .word (some "a"), .opening none, .word (some "+"), .number 1]
      [.word (some "+"), .number 1] :=
    ⟨[.opening none, .word (some "a")], none, _, rfl, .whole (by decide)⟩
  have harity := @arity_read
    ([.opening none, .word (some "a"), .opening none, .word (some "+"), .number 1] ++ [])
    [.opening none, .word (some "a"), .opening none, .word (some "+"), .number 1] []
    (.list [.list [.word (some "a"), .list [.word (some "+"), .number 1]]]) rfl rfl rfl
  ⟨rfl, harity.1.mpr (.inl ⟨_, hopens, rfl, by decide⟩)⟩

/-- The program `+ 1` has no list in parentheses and is run without a fault, and yet the check of
the operands finds something, so that an audit rejects the program. -/
theorem arity_bareSum :
    (Supply.queue [.word (some "+"), .number 1]).read.outcome =
        .ok (.list [.word (some "+"), .number 1]) ∧
      (Supply.queue [.word (some "+"), .number 1]).afterReading = .queue [] ∧
      (¬ ∃ body, Opens [.word (some "+"), .number 1] body ∧ IsShortSum body) ∧
      (PlusLisp.Program.runTree .unlimited (.list [.word (some "+"), .number 1])).outcome =
        .ok (.list [.number 1]) ∧
      arity (.list [.word (some "+"), .number 1]) = [.missingOperands 1] ∧
      program [.word (some "+"), .number 1] (.list [.word (some "+"), .number 1]) {} ≠ [] := by
  have harity : arity (.list [.word (some "+"), .number 1]) = [.missingOperands 1] := by
    rw [arity_eq]
    rfl
  refine ⟨rfl, rfl, ?_, rfl, harity, ?_⟩
  · rintro ⟨body, hopens, -⟩
    rw [Token.opens_cons rfl, Token.opens_cons rfl] at hopens
    exact Token.not_opens_nil hopens
  · intro hprogram
    rw [program_eq_nil_iff, harity] at hprogram
    cases hprogram.2.1

end Audit

end PlusLisp
