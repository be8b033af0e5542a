import PlusLisp.Proofs.Audit.Soundness
import PlusLisp.Proofs.Program.Runs
import PlusLisp.Proofs.Text.Line

/-!
What stops the run of a program text: a run of digits that stands for too much, a sum out of range
or without its operands, or a limit. Tokens and trees of unknown kinds cannot come up, so that no
fault of a text quotes anything but digits (`Program.isPlain_of_run`).
-/

namespace PlusLisp

/-- Holds of the faults that quote nothing of a program but digits. -/
def Fault.IsPlain : Fault → Prop
  | literalOutOfRange digits => ∀ c ∈ digits.toList, c.isDigit = true
  | integerOutOfRange _ | missingOperands _ | depthExceeded _ _ | stepsExceeded _ _ => True
  | unknownToken _ | unknownTree _ | badNumeral _ => False

theorem Fault.isPlain_of_limit {fault : Fault} (h : fault.ownFamily = .limit) : fault.IsPlain := by
  cases fault with
  | depthExceeded | stepsExceeded => trivial
  | literalOutOfRange | unknownToken | unknownTree | badNumeral | integerOutOfRange
  | missingOperands => cases h

/-- What is said about a plain fault fits on a line. -/
theorem Fault.IsPlain.fitsOnLine {fault : Fault} (h : fault.IsPlain) :
    Text.FitsOnLine fault.message := by
  by_cases hworded : fault.CanBeWorded
  · rw [message, if_pos hworded]
    cases fault with
    | literalOutOfRange digits =>
      unfold wording
      exact .append (by decide +kernel) (Text.fitsOnLine_of_isDigit h)
    | integerOutOfRange value =>
      unfold wording
      exact .append (by decide +kernel) (Text.fitsOnLine_intCast value)
    | missingOperands given =>
      unfold wording
      exact .append (by decide +kernel) (Text.fitsOnLine_natCast given)
    | depthExceeded reached limit | stepsExceeded reached limit =>
      unfold wording
      exact .append (.append (.append (by decide +kernel) (Text.fitsOnLine_intCast reached))
        (by decide +kernel)) (Text.fitsOnLine_intCast limit)
    | unknownToken | unknownTree | badNumeral => exact absurd h id
  · rw [message, if_neg hworded]
    unfold Text.unwritableMessage Text.lengthMessage
    exact .append (.append (.append (.append (by decide +kernel)
      (Text.fitsOnLine_natCast Text.longestNumeral)) (by decide +kernel)) (by decide +kernel))
      (by decide +kernel)

/-- What is said about a finding fits on a line. -/
theorem Finding.fitsOnLine (finding : Finding) : Text.FitsOnLine finding.message := by
  cases finding with
  | notTree =>
    unfold message
    decide +kernel
  | unmatchedClosing n | missingOperands n =>
    unfold message
    exact .append (by decide +kernel) (Text.fitsOnLine_natCast n)
  | unclosed count =>
    unfold message
    exact .append (Text.fitsOnLine_natCast count) (by decide +kernel)
  | tooDeep n bound | tooLarge n bound =>
    unfold message
    exact .append (.append (.append (by decide +kernel) (Text.fitsOnLine_natCast n))
      (by decide +kernel)) (Text.fitsOnLine_intCast bound)

/-- Trees that reading builds have no nodes of unknown kinds. -/
theorem Tree.BuiltFrom.isKnown {P : Token → Prop} {tree : Tree} (h : tree.BuiltFrom P) :
    Audit.IsKnown tree := by
  intro kind value children hmem
  cases h.of_mem_subtrees hmem

/-- What a tree of known kinds can be blamed for is plain. -/
theorem Tree.Cause.isPlain {tree : Tree} {fault : Fault} (hknown : Audit.IsKnown tree)
    (h : tree.Cause fault) : fault.IsPlain := by
  cases h with
  | unknownTree hmem => exact absurd hmem (hknown _ _ _)
  | missingOperands | integerOutOfRange => trivial

namespace Program

variable {limits : Limits} {text : String} {tree : Tree} {fault : Fault}

theorem isPlain_of_runTree (hcanonical : tree.IsCanonical)
    (h : (runTree limits tree).outcome = .error fault) : fault.IsPlain := by
  by_cases hlimit : fault.ownFamily = .limit
  · exact Fault.isPlain_of_limit hlimit
  · obtain ⟨forms, rfl, hforms⟩ := hcanonical
    exact (Audit.cause_of_evaluation (.inl rfl) h hlimit).isPlain
      (Tree.BuiltFrom.list hforms).isKnown

/-- What stops a program text quotes nothing but digits. -/
theorem isPlain_of_run (h : (run limits text).outcome = .error fault) : fault.IsPlain := by
  cases hscan : (Token.Scan.ofProgram text).outcome with
  | error fault' =>
    rw [run_of_scan_error hscan] at h
    cases h
    rw [Token.Scan.ofProgram_outcome] at hscan
    obtain ⟨digits, hdigits, rfl⟩ := Token.exists_digits_of_scan_eq_error hscan
    intro c hmem
    rw [String.toList_ofList] at hmem
    exact hdigits c hmem
  | ok tokens =>
    obtain ⟨tree, -, htree, hcanonical⟩ := exists_tree_of_scan hscan
    rw [(run_of_tree htree limits).1] at h
    exact isPlain_of_runTree hcanonical h

end Program

end PlusLisp
