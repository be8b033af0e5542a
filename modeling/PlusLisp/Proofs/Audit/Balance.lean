import PlusLisp.Audit
import PlusLisp.Proofs.Tree.Reading

/-!
The check of the parentheses and the reader agree on every queue of tokens.

Closing parentheses without partner cut tokens into stretches (`Cut`). The check finds the cuts in
one pass (`Audit.balance_cut`), and the reader stops at them one after the other, when it is called
again on what it has left (`inStep_of_cut`).

Main statement: `Audit.balance_inStep`.
-/

namespace PlusLisp

open Token (Nesting)

/-! ### Cuts -/

/-- The closing parentheses without partner among some tokens, by their indices, and the number of
lists that are open at the end of the tokens. -/
inductive Cut : List Token → List Nat → Nat → Prop
  | last {tokens : List Token} {unclosed : Nat} : Nesting 0 tokens unclosed → Cut tokens [] unclosed
  | unmatched {front rest : List Token} {payload : Option String} {unmatched : List Nat}
      {unclosed : Nat} : Nesting 0 front 0 → Cut rest unmatched unclosed →
      Cut (front ++ .closing payload :: rest)
        (front.length :: unmatched.map (· + (front.length + 1))) unclosed

theorem exists_cut (tokens : List Token) : ∃ unmatched unclosed, Cut tokens unmatched unclosed := by
  induction hlength : tokens.length using Nat.strong_induction_on generalizing tokens with
  | _ n ih =>
    rcases Token.nesting_or_unmatched 0 tokens with ⟨last, h⟩ | ⟨front, payload, rest, rfl, h⟩
    · exact ⟨[], last, .last h⟩
    · have hshorter : rest.length < n := by
        rw [← hlength, List.length_append, List.length_cons]
        omega
      obtain ⟨unmatched, unclosed, hrest⟩ := ih rest.length hshorter rest rfl
      exact ⟨_, unclosed, .unmatched h hrest⟩

/-! ### What the check reports -/

namespace Audit

/-- The findings on closing parentheses without partner and on lists left open. -/
def report (unmatched : List Nat) (unclosed : Nat) : List Finding :=
  unmatched.map .unmatchedClosing ++ if unclosed = 0 then [] else [.unclosed unclosed]

/-- The index of the closing parenthesis that a finding is about. -/
def unmatchedIndex? : Finding → Option Nat
  | .unmatchedClosing index => some index
  | _ => none

/-- The number of open lists that a finding is about. -/
def unclosedCount? : Finding → Option Nat
  | .unclosed count => some count
  | _ => none

/-- The indices of the closing parentheses that findings call unmatched. -/
def unmatchedIn (findings : List Finding) : List Nat := findings.filterMap unmatchedIndex?

/-- The number of lists that findings call unclosed, 0 if there is no such finding. -/
def unclosedIn (findings : List Finding) : Nat := (findings.findSome? unclosedCount?).getD 0

theorem unmatchedIn_report (unmatched : List Nat) (unclosed : Nat) :
    unmatchedIn (report unmatched unclosed) = unmatched := by
  have hmap : unmatchedIn (unmatched.map .unmatchedClosing) = unmatched := by
    rw [unmatchedIn, List.filterMap_map]
    exact List.filterMap_some
  rw [unmatchedIn, report, List.filterMap_append]
  by_cases h : unclosed = 0
  · rw [if_pos h, List.filterMap_nil, List.append_nil]
    exact hmap
  · rw [if_neg h]
    exact (List.append_nil _).trans hmap

theorem unclosedIn_report (unmatched : List Nat) (unclosed : Nat) :
    unclosedIn (report unmatched unclosed) = unclosed := by
  have hmap : (unmatched.map Finding.unmatchedClosing).findSome? unclosedCount? = none := by
    simp [unclosedCount?]
  rw [unclosedIn, report, List.findSome?_append, hmap, Option.none_or]
  by_cases h : unclosed = 0
  · rw [if_pos h, h]
    rfl
  · rw [if_neg h]
    rfl

theorem report_eq_nil_iff {unmatched : List Nat} {unclosed : Nat} :
    report unmatched unclosed = [] ↔ unmatched = [] ∧ unclosed = 0 := by
  simp [report]

section

variable {level last : Nat} {tokens : List Token} {unmatched : List Nat} {unclosed : Nat}

theorem balanceFrom_inner {token : Token} (hopening : token.isOpening = false)
    (hclosing : token.isClosing = false) (tokens : List Token) (index level : Nat)
    (findings : List Finding) :
    balanceFrom (token :: tokens) index level findings =
      balanceFrom tokens (index + 1) level findings := by
  cases token with
  | opening payload => cases hopening
  | closing payload => cases hclosing
  | number | word | unknown => rw [balanceFrom] <;> simp

/-- The check finds nothing in nested tokens. -/
theorem balanceFrom_nesting (h : Nesting level tokens last) (rest : List Token) (index : Nat)
    (findings : List Finding) :
    balanceFrom (tokens ++ rest) index level findings =
      balanceFrom rest (index + tokens.length) last findings := by
  induction h generalizing index with
  | nil => rfl
  | opening _ ih | closing _ ih =>
    rw [List.cons_append, balanceFrom, ih, List.length_cons, Nat.add_right_comm, Nat.add_assoc]
  | inner hopening hclosing _ ih =>
    rw [List.cons_append, balanceFrom_inner hopening hclosing, ih, List.length_cons,
      Nat.add_right_comm, Nat.add_assoc]

/-- The findings from an index on are about the cuts, seen from there. -/
theorem balanceFrom_cut (h : Cut tokens unmatched unclosed) (index : Nat)
    (findings : List Finding) :
    balanceFrom tokens index 0 findings =
      findings.reverse ++ report (unmatched.map (· + index)) unclosed := by
  induction h generalizing index findings with
  | @last tokens unclosed h =>
    have hend : balanceFrom tokens index 0 findings =
        balanceFrom [] (index + tokens.length) unclosed findings := by
      rw [← balanceFrom_nesting h, List.append_nil]
    rw [hend]
    cases unclosed with
    | zero => exact (List.append_nil _).symm
    | succ unclosed => exact List.reverse_cons
  | @unmatched front rest payload unmatched unclosed h _ ih =>
    have hindices : (unmatched.map (· + (index + front.length + 1))) =
        (unmatched.map (· + (front.length + 1))).map (· + index) := by
      rw [List.map_map]
      apply List.map_congr_left
      intro place _
      simp only [Function.comp_apply]
      omega
    rw [balanceFrom_nesting h, balanceFrom, ih, hindices, List.reverse_cons, List.append_assoc,
      Nat.add_comm index front.length]
    rfl

theorem balance_cut (h : Cut tokens unmatched unclosed) :
    balance tokens = report unmatched unclosed := by
  have hreport := balanceFrom_cut h 0 []
  simpa [balance] using hreport

/-- The check of the parentheses finds nothing exactly in tokens that leave no list open and close
none too many. -/
theorem balance_eq_nil_iff_nesting : balance tokens = [] ↔ Nesting 0 tokens 0 := by
  constructor
  · intro h
    obtain ⟨unmatched, unclosed, hcut⟩ := exists_cut tokens
    rw [balance_cut hcut, report_eq_nil_iff] at h
    obtain ⟨rfl, rfl⟩ := h
    cases hcut with
    | last hnesting => exact hnesting
  · intro h
    exact balance_cut (.last h)

/-- The check of the parentheses finds one without partner only where there is a first. -/
theorem exists_unmatched_of_mem_balance {index : Nat}
    (h : .unmatchedClosing index ∈ balance tokens) :
    ∃ front payload rest, tokens = front ++ .closing payload :: rest ∧ Nesting 0 front 0 := by
  rcases Token.nesting_or_unmatched 0 tokens with ⟨last, hnesting⟩ | hunmatched
  · rw [balance_cut (.last hnesting), report] at h
    by_cases hlast : last = 0 <;> simp [hlast] at h
  · exact hunmatched

end

end Audit

/-! ### Reading again and again -/

/-- A supply once it has been read so many times. -/
def Supply.afterReadings (supply : Supply) : Nat → Supply
  | 0 => supply
  | count + 1 => supply.afterReading.afterReadings count

/-- The readings of a queue, one after the other, are in step with closing parentheses without
partner and a number of lists left open.

Calls count from 0. The first starts at the front of the tokens and each of the others right after
a closing parenthesis without partner, so that a call takes the tokens from there up to and
including the next such parenthesis, and the last one takes all that are left. -/
structure InStep (tokens : List Token) (unmatched : List Nat) (unclosed : Nat) : Prop where
  increasing : unmatched.Pairwise (· < ·)
  inside : ∀ index ∈ unmatched, index < tokens.length
  starts : ∀ (call start : Nat), (0 :: unmatched.map (· + 1))[call]? = some start →
    (Supply.queue tokens).afterReadings call = .queue (tokens.drop start)
  empties : (Supply.queue tokens).afterReadings (unmatched.length + 1) = .queue []
  succeeds : ∀ call, ∃ tree, ((Supply.queue tokens).afterReadings call).read.outcome = .ok tree
  stops : ∀ (call index : Nat), unmatched[call]? = some index →
    ((Supply.queue tokens).afterReadings call).read.warnings =
      [.unmatchedClosing (tokens.length - 1 - index)]
  ends : ((Supply.queue tokens).afterReadings unmatched.length).read.warnings =
    if unclosed = 0 then [] else [.unclosed unclosed]

theorem Supply.afterReadings_nil (count : Nat) : (queue []).afterReadings count = queue [] := by
  induction count with
  | zero => rfl
  | succ count ih => exact ih

section

variable {front rest tokens : List Token} {payload : Option String} {unmatched : List Nat}
  {unclosed : Nat}

/-- Nested tokens are taken by a single reading. -/
theorem inStep_of_nesting (h : Nesting 0 tokens unclosed)
    (hreadable : ∀ token ∈ tokens, token.IsReadable) : InStep tokens [] unclosed := by
  obtain ⟨forms, -, hread⟩ := Tree.read_nesting h hreadable
  have hqueue : (Supply.queue tokens).afterReading = .queue [] := Supply.afterReading_queue hread
  constructor
  case increasing => exact .nil
  case inside =>
    intro index hmem
    cases hmem
  case starts =>
    intro call start hstart
    cases call with
    | zero =>
      cases hstart
      rfl
    | succ call => cases hstart
  case empties => exact hqueue
  case succeeds =>
    intro call
    cases call with
    | zero => exact ⟨_, congrArg Reading.outcome hread⟩
    | succ call =>
      rw [Supply.afterReadings, hqueue, Supply.afterReadings_nil]
      exact ⟨_, rfl⟩
  case stops =>
    intro call index hindex
    cases hindex
  case ends =>
    have hwarnings : (Supply.queue tokens).read.warnings = _ := congrArg Reading.warnings hread
    rw [List.length_nil, Supply.afterReadings, hwarnings]
    by_cases hclosed : unclosed = 0
    · rw [if_pos hclosed]
      rfl
    · rw [if_neg hclosed]
      rfl

/-- A reading stops at the first closing parenthesis without partner, and the next goes on after
it. -/
theorem InStep.of_unmatched (h : Nesting 0 front 0) (hreadable : ∀ token ∈ front, token.IsReadable)
    (hrest : InStep rest unmatched unclosed) :
    InStep (front ++ .closing payload :: rest)
      (front.length :: unmatched.map (· + (front.length + 1))) unclosed := by
  obtain ⟨forms, -, hread⟩ := Tree.read_unmatched payload h hreadable rest
  have hqueue (count : Nat) :
      (Supply.queue (front ++ .closing payload :: rest)).afterReadings (count + 1) =
        (Supply.queue rest).afterReadings count := by
    rw [Supply.afterReadings, Supply.afterReading_queue hread]
  have hlength : (front ++ .closing payload :: rest).length = rest.length + (front.length + 1) := by
    rw [List.length_append, List.length_cons]
    omega
  constructor
  case increasing =>
    refine List.pairwise_cons.mpr ⟨?_, List.pairwise_map.mpr ?_⟩
    · intro place hmem
      obtain ⟨index, -, rfl⟩ := List.mem_map.mp hmem
      omega
    · exact hrest.increasing.imp fun hlt => Nat.add_lt_add_right hlt _
  case inside =>
    intro place hmem
    rw [hlength]
    rcases List.mem_cons.mp hmem with rfl | hmem
    · omega
    · obtain ⟨index, hindex, rfl⟩ := List.mem_map.mp hmem
      exact Nat.add_lt_add_right (hrest.inside index hindex) _
  case starts =>
    intro call place hplace
    cases call with
    | zero =>
      cases hplace
      rfl
    | succ call =>
      have hstarts : (front.length :: unmatched.map (· + (front.length + 1))).map (· + 1) =
          (0 :: unmatched.map (· + 1)).map (· + (front.length + 1)) := by
        rw [List.map_cons, List.map_cons, List.map_map, List.map_map, Nat.zero_add]
        exact congrArg _ (List.map_congr_left fun index _ => Nat.add_right_comm index _ 1)
      rw [List.getElem?_cons_succ, hstarts, List.getElem?_map] at hplace
      obtain ⟨start, hstart, rfl⟩ := Option.map_eq_some_iff.mp hplace
      rw [hqueue, hrest.starts call start hstart, Nat.add_comm start, ← List.drop_drop]
      simp
  case empties =>
    rw [List.length_cons, List.length_map, hqueue]
    exact hrest.empties
  case succeeds =>
    intro call
    cases call with
    | zero => exact ⟨_, congrArg Reading.outcome hread⟩
    | succ call =>
      rw [hqueue]
      exact hrest.succeeds call
  case stops =>
    intro call place hplace
    cases call with
    | zero =>
      cases hplace
      have hleft : (front ++ .closing payload :: rest).length - 1 - front.length = rest.length := by
        rw [hlength]
        omega
      rw [hleft]
      exact congrArg Reading.warnings hread
    | succ call =>
      rw [List.getElem?_cons_succ, List.getElem?_map] at hplace
      obtain ⟨index, hindex, rfl⟩ := Option.map_eq_some_iff.mp hplace
      have hleft : (front ++ .closing payload :: rest).length - 1 - (index + (front.length + 1)) =
          rest.length - 1 - index := by
        rw [hlength]
        omega
      rw [hqueue, hrest.stops call index hindex, hleft]
  case ends =>
    rw [List.length_cons, List.length_map, hqueue]
    exact hrest.ends

theorem inStep_of_cut (h : Cut tokens unmatched unclosed)
    (hreadable : ∀ token ∈ tokens, token.IsReadable) : InStep tokens unmatched unclosed := by
  induction h with
  | last h => exact inStep_of_nesting h hreadable
  | unmatched h _ ih =>
    rw [List.forall_mem_append, List.forall_mem_cons] at hreadable
    obtain ⟨hfront, -, hrest⟩ := hreadable
    exact .of_unmatched h hfront (ih hrest)

/-- Nothing is amiss exactly when the first reading takes all tokens without a warning. -/
theorem InStep.closed_iff (h : InStep tokens unmatched unclosed) :
    unmatched = [] ∧ unclosed = 0 ↔
      (Supply.queue tokens).afterReading = .queue [] ∧
        (Supply.queue tokens).read.warnings = [] := by
  constructor
  · rintro ⟨rfl, rfl⟩
    exact ⟨h.empties, h.ends⟩
  · rintro ⟨-, hwarnings⟩
    cases unmatched with
    | cons index unmatched =>
      have hfirst := h.stops 0 index rfl
      rw [Supply.afterReadings, hwarnings] at hfirst
      cases hfirst
    | nil =>
      have hends := h.ends
      rw [List.length_nil, Supply.afterReadings, hwarnings] at hends
      refine ⟨rfl, ?_⟩
      by_contra hopen
      rw [if_neg hopen] at hends
      cases hends

end

/-- **The check of the parentheses and the reader agree** on every queue of readable tokens. The
check reports nothing but closing parentheses without partner, in order, and lists left open. Each
of the former stops one reading of the queue, which reports it alone and says how many tokens are
left; one more reading takes all that remain and reports the lists left open, if there are any.
Nothing is found exactly when a single reading empties the queue without a warning. -/
theorem Audit.balance_inStep {tokens : List Token}
    (hreadable : ∀ token ∈ tokens, token.IsReadable) :
    balance tokens = report (unmatchedIn (balance tokens)) (unclosedIn (balance tokens)) ∧
      InStep tokens (unmatchedIn (balance tokens)) (unclosedIn (balance tokens)) ∧
      (balance tokens = [] ↔
        (Supply.queue tokens).afterReading = .queue [] ∧
          (Supply.queue tokens).read.warnings = []) := by
  obtain ⟨unmatched, unclosed, hcut⟩ := exists_cut tokens
  have hstep := inStep_of_cut hcut hreadable
  rw [balance_cut hcut, unmatchedIn_report, unclosedIn_report]
  exact ⟨rfl, hstep, report_eq_nil_iff.trans hstep.closed_iff⟩

/-- The tokens of `1))(a` take three readings. -/
theorem Audit.balance_inStep_twice_unmatched :
    (∀ token ∈ [Token.number 1, .closing none, .closing none, .opening none, .word (some "a")],
        token.IsReadable) ∧
      InStep [.number 1, .closing none, .closing none, .opening none, .word (some "a")] [1, 2] 1 :=
  have hreadable : ∀ token ∈
      [Token.number 1, .closing none, .closing none, .opening none, .word (some "a")],
      token.IsReadable := by
    simp [Token.IsReadable, Signed64.InRange, Signed64.lowest, Signed64.highest]
  ⟨hreadable, (balance_inStep hreadable).2.1⟩

end PlusLisp
