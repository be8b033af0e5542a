import PlusLisp.Proofs.Tree.Reading

/-!
Tokens that a reading refuses: those of unknown kinds, and numbers out of range.

A reading that comes upon one stops right there, whatever lists are open, and reports nothing
(`read_unreadable`). It comes upon all tokens before the first closing parenthesis without partner,
and upon no other (`exists_refusal`, `exists_reading`).

Main statement: `read_refuses`.
-/

namespace PlusLisp

namespace Token

instance (token : Token) : Decidable token.IsReadable :=
  match token with
  | .opening _ | .closing _ | .word _ => isTrue trivial
  | .number value => inferInstanceAs (Decidable (Signed64.InRange value))
  | .unknown _ _ => isFalse id

/-- How a token that is not readable is answered: the family of the fault, and what is said about
it. A number that is too long to be written cannot be shown. -/
inductive Unreadable : Token → Fault.Family → String → Prop
  | unknown {kind : String} {value : Option String} :
      Unreadable (.unknown kind value) .kind ("Unknown token kind: " ++ kind)
  | outOfRange {value : Int} : ¬ Signed64.InRange value → Text.IsWritable value →
      Unreadable (.number value) .range ("Integer out of 64-bit range: " ++ toString value)
  | unwritable {value : Int} : ¬ Signed64.InRange value → ¬ Text.IsWritable value →
      Unreadable (.number value) .numeral Text.unwritableMessage

/-- An integer out of range is answered as such if it can be written. -/
theorem unreadable_number {value : Int} (h : ¬ Signed64.InRange value) :
    (number value).Unreadable (Fault.integerOutOfRange value).family
      (Fault.integerOutOfRange value).message := by
  have hworded : (Fault.integerOutOfRange value).CanBeWorded ↔ Text.IsWritable value :=
    List.forall_mem_singleton
  by_cases hwritable : Text.IsWritable value
  · rw [Fault.family, Fault.message, if_pos (hworded.mpr hwritable), if_pos (hworded.mpr hwritable)]
    exact .outOfRange h hwritable
  · rw [Fault.family, Fault.message, if_neg (mt hworded.mp hwritable),
      if_neg (mt hworded.mp hwritable)]
    exact .unwritable h hwritable

/-- Among tokens that are not all readable there is a first that is not. -/
theorem exists_first_unreadable {tokens : List Token} (h : ∃ token ∈ tokens, ¬ token.IsReadable) :
    ∃ front bad back, tokens = front ++ bad :: back ∧ (∀ token ∈ front, token.IsReadable) ∧
      ¬ bad.IsReadable := by
  obtain ⟨bad, hfind⟩ : ∃ bad, tokens.find? (¬ ·.IsReadable) = some bad :=
    Option.isSome_iff_exists.mp (by simpa using h)
  obtain ⟨hbad, front, back, htokens, hfront⟩ := List.find?_eq_some_iff_append.mp hfind
  exact ⟨front, bad, back, htokens, by simpa using hfront, by simpa using hbad⟩

end Token

namespace Tree

open Token (Nesting IsNested Reaches Unreadable)

section

variable {last : Nat} {tokens front rest : List Token} {bad : Token}

/-- A reading stops at a token that is not readable, whatever lists are open. -/
theorem readInto_unreadable (hbad : ¬ bad.IsReadable) (rest : List Token) (current : List Tree)
    (around : List (List Tree)) :
    ∃ fault : Fault, bad.Unreadable fault.family fault.message ∧
      readInto (bad :: rest) current around = ⟨.error fault, rest, []⟩ := by
  cases bad with
  | opening payload | closing payload | word text => exact absurd trivial hbad
  | number value =>
    have hrange : ¬ Signed64.InRange value := hbad
    refine ⟨.integerOutOfRange value, Token.unreadable_number hrange, ?_⟩
    rw [readInto.eq_def]
    exact if_neg hrange
  | unknown kind value => exact ⟨.unknownToken kind, .unknown, rfl⟩

theorem read_unreadable (h : Nesting 0 front last) (hreadable : ∀ token ∈ front, token.IsReadable)
    (hbad : ¬ bad.IsReadable) (rest : List Token) :
    ∃ fault : Fault, bad.Unreadable fault.family fault.message ∧
      read (front ++ bad :: rest) = ⟨.error fault, rest, []⟩ := by
  obtain ⟨current, around, -, -, hread⟩ := readInto_nesting h hreadable (bad :: rest) [] [] rfl
  obtain ⟨fault, hfault, hstop⟩ := readInto_unreadable hbad rest current around
  exact ⟨fault, hfault, hread.trans hstop⟩

/-- A reading comes upon the first token within reach that is not readable. -/
theorem exists_refusal (h : Reaches tokens front) (hbad : ∃ token ∈ front, ¬ token.IsReadable) :
    ∃ before bad rest, tokens = before ++ bad :: rest ∧ (∀ token ∈ before, token.IsReadable) ∧
      ∃ fault : Fault, bad.Unreadable fault.family fault.message ∧
        read tokens = ⟨.error fault, rest, []⟩ := by
  obtain ⟨before, bad, back, rfl, hbefore, hbad⟩ := Token.exists_first_unreadable hbad
  obtain ⟨last, hnesting⟩ := Token.isNestedIn_iff_exists_nesting.mp
    (h.isNested.of_isPrefix (List.prefix_append before (bad :: back)))
  obtain ⟨beyond, rfl⟩ := h.isPrefix
  obtain ⟨fault, hfault, hread⟩ := read_unreadable hnesting hbefore hbad (back ++ beyond)
  have htokens : before ++ bad :: back ++ beyond = before ++ bad :: (back ++ beyond) :=
    List.append_assoc before (bad :: back) beyond
  exact ⟨before, bad, back ++ beyond, htokens, hbefore, fault, hfault, htokens ▸ hread⟩

/-- A reading within whose reach all tokens are readable takes them, together with the closing
parenthesis that stops it, if there is one. -/
theorem exists_reading (h : Reaches tokens front) (hreadable : ∀ token ∈ front, token.IsReadable) :
    ∃ forms taken rest log, tokens = taken ++ rest ∧ (∀ token ∈ taken, token.IsReadable) ∧
      read tokens = ⟨.ok (list forms), rest, log⟩ := by
  cases h with
  | whole hnested =>
    obtain ⟨last, hnesting⟩ := Token.isNestedIn_iff_exists_nesting.mp hnested
    obtain ⟨forms, -, hread⟩ := read_nesting hnesting hreadable
    exact ⟨forms, tokens, [], _, (List.append_nil _).symm, hreadable, hread⟩
  | @stopped _ rest hfirst =>
    obtain ⟨payload, rfl, hnesting⟩ := Token.firstUnmatched_iff.mp hfirst
    obtain ⟨forms, -, hread⟩ := read_unmatched payload hnesting hreadable rest
    refine ⟨forms, front ++ [.closing payload], rest, _, ?_, ?_, hread⟩
    · rw [List.append_assoc, List.singleton_append]
    · exact List.forall_mem_append.mpr ⟨hreadable, List.forall_mem_singleton.mpr trivial⟩

end

/-- **Readings fail at the first token that is not readable, and only there.** A reading of a queue
fails exactly when such a token stands before the first closing parenthesis without partner, or
anywhere if there is none. The fault is then that of the first such token, the queue is left with
the tokens after it, and nothing has been reported. A reading that does not fail has taken readable
tokens only. A fixed sequence is read alike, and is left as it is. -/
theorem read_refuses (tokens : List Token) :
    (∃! reach, Reaches tokens reach) ∧
    (∀ reach, Reaches tokens reach →
      ((∃ fault, (Supply.queue tokens).read.outcome = .error fault) ↔
        ∃ token ∈ reach, ¬ token.IsReadable)) ∧
    (∀ fault, (Supply.queue tokens).read.outcome = .error fault →
      ∃ before bad rest, tokens = before ++ bad :: rest ∧ (∀ token ∈ before, token.IsReadable) ∧
        bad.Unreadable fault.family fault.message ∧
        (Supply.queue tokens).afterReading = .queue rest ∧
        (Supply.queue tokens).read.log = []) ∧
    (∀ tree, (Supply.queue tokens).read.outcome = .ok tree →
      ∃ taken rest, tokens = taken ++ rest ∧ (∀ token ∈ taken, token.IsReadable) ∧
        (Supply.queue tokens).afterReading = .queue rest) ∧
    (Supply.fixed tokens).read = (Supply.queue tokens).read ∧
    (Supply.fixed tokens).afterReading = .fixed tokens := by
  obtain ⟨reach, hreach⟩ := Token.exists_reaches tokens
  refine ⟨⟨reach, hreach, fun other hother => hother.unique hreach⟩, ?_⟩
  by_cases hbad : ∃ token ∈ reach, ¬ token.IsReadable
  · obtain ⟨before, bad, rest, htokens, hbefore, fault, hfault, hread⟩ := exists_refusal hreach hbad
    have houtcome : (Supply.queue tokens).read.outcome = .error fault :=
      congrArg Reading.outcome hread
    refine ⟨?_, ?_, ?_, rfl, rfl⟩
    · intro other hother
      rw [hother.unique hreach]
      exact iff_of_true ⟨fault, houtcome⟩ hbad
    · intro fault' hfault'
      obtain rfl : fault = fault' := Except.error.inj (houtcome.symm.trans hfault')
      exact ⟨before, bad, rest, htokens, hbefore, hfault, Supply.afterReading_queue hread,
        congrArg Reading.log hread⟩
    · intro tree htree
      cases houtcome.symm.trans htree
  · have hreadable : ∀ token ∈ reach, token.IsReadable := by simpa using hbad
    obtain ⟨forms, taken, rest, log, htokens, htaken, hread⟩ := exists_reading hreach hreadable
    have houtcome : (Supply.queue tokens).read.outcome = .ok (list forms) :=
      congrArg Reading.outcome hread
    refine ⟨?_, ?_, ?_, rfl, rfl⟩
    · intro other hother
      rw [hother.unique hreach]
      refine iff_of_false ?_ hbad
      rintro ⟨fault, hfault⟩
      cases houtcome.symm.trans hfault
    · intro fault hfault
      cases houtcome.symm.trans hfault
    · intro tree _
      exact ⟨taken, rest, htokens, htaken, Supply.afterReading_queue hread⟩

end Tree

end PlusLisp
