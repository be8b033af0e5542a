import PlusLisp.Proofs.Evaluation.Itinerary
import PlusLisp.Proofs.Program.Composition

/-!
The journal of a run. Scanning and reading leave one record each, and the reading a warning before
it when the parentheses do not match. Evaluation follows with the operations that it finds not to
exist, in the order in which it comes to them, and with its end if it comes to one.

Main statement: `Program.run_log`.
-/

namespace PlusLisp

open Token (Nesting)

namespace Token

/-- Holds of the two parentheses. -/
def isParen (c : Char) : Bool := c = '(' || c = ')'

/-- Each parenthesis gets two blanks. -/
theorem length_isolateParens (text : List Char) :
    (isolateParens text).length = text.length + 2 * text.countP isParen := by
  induction text with
  | nil => rfl
  | cons c text ih =>
    rw [isolateParens, List.flatMap_cons, List.length_append, ← isolateParens, ih, List.countP_cons,
      List.length_cons]
    by_cases h : c = '(' ∨ c = ')'
    · have hparen : isParen c = true := by simpa [isParen] using h
      rw [if_pos h, if_pos hparen]
      simp only [List.length_cons, List.length_nil]
      omega
    · have hparen : ¬ isParen c = true := by simpa [isParen] using h
      rw [if_neg h, if_neg hparen]
      simp only [List.length_cons, List.length_nil]
      omega

/-- A scan that succeeds leaves one record. -/
theorem Scan.log_ofProgram {text : String} {tokens : List Token}
    (h : (ofProgram text).outcome = .ok tokens) :
    (ofProgram text).log =
      [.scanned tokens.length (text.length + 2 * text.toList.countP isParen)] := by
  rw [ofProgram, ofText] at h ⊢
  cases hscan : scan (isolateParens text.toList) with
  | error fault =>
    rw [hscan] at h
    cases h
  | ok tokens' =>
    rw [hscan] at h
    cases h
    rw [length_isolateParens]
    rfl

end Token

/-- A reading that succeeds leaves one record, after a warning unless the parentheses match. -/
theorem Tree.exists_warning {tokens : List Token} (hreadable : ∀ token ∈ tokens, token.IsReadable) :
    ∃ forms, ∃ warning? : Option Event, (read tokens).outcome = .ok (list forms) ∧
      (read tokens).log = warning?.toList ++ [.read forms.length] ∧
      (∀ warning ∈ warning?, warning.channel = "minilisp.parser" ∧ warning.severity = .warning) ∧
      (warning? = none ↔ Audit.balance tokens = []) := by
  rw [Audit.balance_eq_nil_iff_nesting]
  obtain ⟨last, hnesting⟩ | ⟨front, payload, rest, rfl, hfront⟩ :=
    Token.nesting_or_unmatched 0 tokens
  · obtain ⟨forms, -, hread⟩ := read_nesting hnesting hreadable
    have hlast : Nesting 0 tokens 0 ↔ last = 0 := by
      constructor
      · intro hclosed
        exact hnesting.unclosed_eq.symm.trans hclosed.unclosed_eq
      · rintro rfl
        exact hnesting
    rw [hread, hlast]
    by_cases hclosed : last = 0
    · exact ⟨forms, none, rfl, by simp [hclosed], nofun, by simp [hclosed]⟩
    · refine ⟨forms, some (.unclosed last), rfl, by simp [hclosed], ?_, by simp [hclosed]⟩
      rintro warning ⟨⟩
      exact ⟨rfl, rfl⟩
  · rw [List.forall_mem_append] at hreadable
    obtain ⟨forms, -, hread⟩ := read_unmatched payload hfront hreadable.1 rest
    have hunbalanced : ¬ Nesting 0 (front ++ .closing payload :: rest) 0 := fun hclosed =>
      Token.not_isNestedIn_of_nesting hfront (Token.isNestedIn_iff_exists_nesting.mpr ⟨0, hclosed⟩)
    rw [hread]
    refine ⟨forms, some (.unmatchedClosing rest.length), rfl, rfl, ?_, by simp [hunbalanced]⟩
    rintro warning ⟨⟩
    exact ⟨rfl, rfl⟩

namespace Program

variable {text : String} {tokens : List Token}

/-- **The journal of a run without limits**, for every text that is scanned. -/
theorem run_log (hscan : (Token.Scan.ofProgram text).outcome = .ok tokens) :
    ∃ forms, ∃ warning? : Option Event, ∃ entered : List (List Nat),
      Program.tree text = .ok (.list forms) ∧
      (run .unlimited text).log =
        .scanned tokens.length (text.length + 2 * text.toList.countP Token.isParen) ::
          (warning?.toList ++ .read forms.length ::
            ((entered.filterMap (unknownAt .program (.list forms))).map .unknownOperation ++
              match (run .unlimited text).outcome with
              | .ok _ => [.finished forms.length (run .unlimited text).steps]
              | .error _ => [])) ∧
      (∀ warning ∈ warning?, warning.channel = "minilisp.parser" ∧ warning.severity = .warning) ∧
      (warning? = none ↔ Audit.balance tokens = []) ∧
      entered.Pairwise (· < ·) ∧
      (∀ path, path ∈ entered ↔ Entered .program (.list forms) path) ∧
      (run .unlimited text).steps = entered.length := by
  obtain ⟨forms, warning?, hread, hlog, hwarning, hbalance⟩ :=
    Tree.exists_warning (isReadable_of_scan hscan)
  obtain ⟨entered, hincreasing, hmem, hsteps, hentered⟩ :=
    Evaluator.exists_entered 0 none forms
  have htree : Program.tree text = .ok (.list forms) := by
    rw [Program.tree, hscan]
    exact hread
  obtain ⟨houtcome, hstepsEq⟩ := run_of_tree htree .unlimited
  have hrun : (run .unlimited text).log = (Token.Scan.ofProgram text).log ++
      (Tree.read tokens).log ++ (runTree .unlimited (.list forms)).log := by
    rw [run, hscan]
    simp only [hread]
  refine ⟨forms, warning?, entered, htree, ?_, hwarning, hbalance, hincreasing, hmem,
    hstepsEq.trans hsteps⟩
  rw [hrun, Token.Scan.log_ofProgram hscan, hlog, houtcome, hstepsEq, List.append_assoc,
    List.append_assoc]
  have hlist : (runTree .unlimited (.list forms)).log = _ := hentered
  rw [hlist]
  rfl

/-- In the program `f (f (g)) ((h) (+ 1) (i)`, whose last list is not closed, six nodes are entered
before the sum fails for want of an operand. Two of them ask for operations. -/
theorem run_log_failing :
    let text := "f (f (g)) ((h) (+ 1) (i)"
    let tokens : List Token := [.word (some "f"), .opening none, .word (some "f"), .opening none,
      .word (some "g"), .closing none, .closing none, .opening none, .opening none,
      .word (some "h"), .closing none, .opening none, .word (some "+"), .number 1, .closing none,
      .opening none, .word (some "i"), .closing none]
    (Token.Scan.ofProgram text).outcome = .ok tokens ∧ Audit.balance tokens ≠ [] ∧
      (run .unlimited text).log = [.scanned 18 46, .unclosed 1, .read 3,
        .unknownOperation (some "f"), .unknownOperation (some "h")] ∧
      ∃ forms, ∃ entered : List (List Nat), Program.tree text = .ok (.list forms) ∧
        entered.Pairwise (· < ·) ∧
        (∀ path, path ∈ entered ↔ Entered .program (.list forms) path) ∧ entered.length = 6 ∧
        entered.filterMap (unknownAt .program (.list forms)) = [some "f", some "h"] := by
  intro text tokens
  have hstart : Token.Scan.ofProgram text = .ofText (Token.isolateParens
      ['f', ' ', '(', 'f', ' ', '(', 'g', ')', ')', ' ', '(', '(', 'h', ')', ' ', '(', '+',
        ' ', '1', ')', ' ', '(', 'i', ')']) := Token.Scan.ofProgram_ofList _
  have hscan : (Token.Scan.ofProgram text).outcome = .ok tokens := by
    rw [hstart]
    rfl
  have hrun : run .unlimited text = ⟨.error (.missingOperands 1), 6, [.scanned 18 46, .unclosed 1,
      .read 3, .unknownOperation (some "f"), .unknownOperation (some "h")]⟩ := by
    rw [run, hstart]
    rfl
  obtain ⟨forms, warning?, entered, htree, hlog, -, hbalance, hincreasing, hmem, hlength⟩ :=
    run_log hscan
  rw [hrun] at hlog hlength
  dsimp only at hlog hlength
  rw [List.append_nil] at hlog
  cases warning? with
  | none => cases (List.cons.inj (List.cons.inj hlog).2).1
  | some warning =>
    have hnames : [some "f", some "h"].map Event.unknownOperation =
        (entered.filterMap (unknownAt .program (.list forms))).map Event.unknownOperation :=
      (List.cons.inj (List.cons.inj (List.cons.inj hlog).2).2).2
    have hinjective : Function.Injective Event.unknownOperation :=
      fun _ _ => Event.unknownOperation.inj
    have hunbalanced : Audit.balance tokens ≠ [] := fun h =>
      Option.some_ne_none warning (hbalance.mpr h)
    exact ⟨hscan, hunbalanced, by rw [hrun], forms, entered, htree, hincreasing, hmem,
      hlength.symm, (List.map_injective_iff.mpr hinjective hnames).symm⟩

end Program

end PlusLisp
