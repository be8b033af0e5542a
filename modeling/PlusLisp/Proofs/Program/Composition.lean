import PlusLisp.Proofs.Audit.Balance
import PlusLisp.Proofs.Program.Runs

/-!
Programs compose: two program texts with a line feed between them, run without limits.

The line feed keeps the tokens of the two apart (`Token.Scan.ofProgram_append_lineFeed`). If those
of the first text leave no list open and close none too many, the forms of the whole are the forms
of the two (`Tree.read_append`), and so are the values and the steps (`Tree.courseEach_append`). A
closing parenthesis without partner in the first text ends the reading there, so that nothing of
the second is read (`Tree.read_append_of_unmatched`).

Main statement: `Program.run_append_lineFeed`.
-/

namespace PlusLisp

open Token (Nesting)

/-! ### Reading -/

namespace Tree

variable {tokens front rest later : List Token} {forms others : List Tree}

/-- Programs with the same tokens are the same. -/
theorem eq_of_flattenEach_eq (hforms : ∀ form ∈ forms, form.BuiltFrom Token.IsReadable)
    (hothers : ∀ other ∈ others, other.BuiltFrom Token.IsReadable)
    (h : flattenEach forms = flattenEach others) : forms = others := by
  have hread : read (flattenEach forms) = read (flattenEach others) := congrArg read h
  rw [read_flattenEach hforms, read_flattenEach hothers] at hread
  cases hread
  rfl

theorem builtFrom_of_read (hreadable : ∀ token ∈ tokens, token.IsReadable)
    (h : (read tokens).outcome = .ok (list forms)) :
    ∀ form ∈ forms, form.BuiltFrom Token.IsReadable := by
  obtain ⟨forms', hread, hbuilt⟩ := readInto_builtFrom hreadable hreadable
    (List.forall_mem_nil _) (List.forall_mem_nil _)
  cases h.symm.trans hread
  exact hbuilt

/-- The later of two programs is read just as far when the tokens of the first stand before it. -/
theorem flattenEach_read_append (hnesting : Nesting 0 tokens 0)
    (hreadable : ∀ token ∈ tokens ++ later, token.IsReadable) :
    ∃ others whole, (read later).outcome = .ok (list others) ∧
      (read (tokens ++ later)).outcome = .ok (list whole) ∧
      flattenEach whole = tokens.map Token.bare ++ flattenEach others := by
  obtain ⟨-, hlater⟩ := List.forall_mem_append.mp hreadable
  -- Either all of the later tokens are read, or those before one without partner.
  rcases Token.nesting_or_unmatched 0 later with
    ⟨last, hrest⟩ | ⟨front, payload, rest, rfl, hfront⟩
  · obtain ⟨others, hothers, hread⟩ := read_nesting hrest hlater
    obtain ⟨whole, hwhole, hread'⟩ := read_nesting (hnesting.append hrest) hreadable
    refine ⟨others, whole, congrArg Reading.outcome hread, congrArg Reading.outcome hread', ?_⟩
    rw [hwhole, hothers, List.map_append, List.append_assoc]
  · have hreadable' : ∀ token ∈ tokens ++ front, token.IsReadable := by
      rw [← List.append_assoc] at hreadable
      exact (List.forall_mem_append.mp hreadable).1
    obtain ⟨others, hothers, hread⟩ :=
      read_unmatched payload hfront (List.forall_mem_append.mp hlater).1 rest
    obtain ⟨whole, hwhole, hread'⟩ :=
      read_unmatched payload (hnesting.append hfront) hreadable' rest
    rw [List.append_assoc] at hread'
    refine ⟨others, whole, congrArg Reading.outcome hread, congrArg Reading.outcome hread', ?_⟩
    rw [hwhole, hothers, List.map_append]

/-- **What is read from the tokens of two programs** is the forms of the first and then those of the
second, if the first leaves no list open and closes none too many. -/
theorem read_append (hnesting : Nesting 0 tokens 0)
    (hreadable : ∀ token ∈ tokens ++ later, token.IsReadable) :
    ∃ forms others, (read tokens).outcome = .ok (list forms) ∧
      (read later).outcome = .ok (list others) ∧
      (read (tokens ++ later)).outcome = .ok (list (forms ++ others)) := by
  obtain ⟨htokens, hlater⟩ := List.forall_mem_append.mp hreadable
  obtain ⟨forms, hforms, hread⟩ := read_nesting hnesting htokens
  obtain ⟨others, whole, hothers, hwhole, hflatten⟩ := flattenEach_read_append hnesting hreadable
  have hread : (read tokens).outcome = .ok (list forms) := congrArg Reading.outcome hread
  have hbuilt := builtFrom_of_read htokens hread
  have hbuilt' := builtFrom_of_read hlater hothers
  obtain rfl : whole = forms ++ others := by
    refine eq_of_flattenEach_eq (builtFrom_of_read hreadable hwhole)
      (List.forall_mem_append.mpr ⟨hbuilt, hbuilt'⟩) ?_
    rw [List.replicate_zero, List.append_nil] at hforms
    rw [hflatten, flattenEach_append, hforms]
  exact ⟨forms, others, hread, hothers, hwhole⟩

/-- Nothing is read after a closing parenthesis without partner. -/
theorem read_append_of_unmatched {payload : Option String} (hfront : Nesting 0 front 0)
    (hreadable : ∀ token ∈ front ++ .closing payload :: rest ++ later, token.IsReadable) :
    (read (front ++ .closing payload :: rest ++ later)).outcome =
      (read (front ++ .closing payload :: rest)).outcome := by
  obtain ⟨htokens, -⟩ := List.forall_mem_append.mp hreadable
  obtain ⟨hfronts, -⟩ := List.forall_mem_append.mp htokens
  obtain ⟨forms, hforms, hread⟩ := read_unmatched payload hfront hfronts rest
  obtain ⟨whole, hwhole, hread'⟩ := read_unmatched payload hfront hfronts (rest ++ later)
  rw [← List.cons_append, ← List.append_assoc] at hread'
  have hread := congrArg Reading.outcome hread
  have hread' := congrArg Reading.outcome hread'
  obtain rfl : whole = forms :=
    eq_of_flattenEach_eq (builtFrom_of_read hreadable hread') (builtFrom_of_read htokens hread)
      (hwhole.trans hforms.symm)
  exact hread'.trans hread.symm

end Tree

/-! ### Courses -/

instance : LawfulMonad Course := LawfulMonad.mk' Course
  (by
    intro α course
    obtain ⟨outcome, moments⟩ := course
    cases outcome with
    | ok value => exact congrArg (Course.mk _) (List.append_nil _)
    | error fault => rfl)
  (by
    intro α β value next
    rfl)
  (by
    intro α β γ course next last
    obtain ⟨outcome, moments⟩ := course
    cases outcome with
    | error fault => rfl
    | ok value =>
      simp only [Bind.bind, Course.bind]
      cases (next value).outcome <;> simp)

/-- The members of a list take their courses one after the other. -/
theorem Tree.courseEach_append (trees others : List Tree) (depth : Int) :
    courseEach (trees ++ others) depth = do
      let values ← courseEach trees depth
      let later ← courseEach others depth
      return values ++ later := by
  induction trees with
  | nil => simp [courseEach]
  | cons tree trees ih =>
    simp only [List.cons_append, courseEach, ih, bind_assoc, pure_bind]
    congr 1
    funext value
    cases value.isNull <;> rfl

/-! ### Programs -/

namespace Program

variable {before after : String} {tokens : List Token} {forms others : List Tree}
  {value : Tree}

theorem isReadable_of_scan {text : String} (h : (Token.Scan.ofProgram text).outcome = .ok tokens) :
    ∀ token ∈ tokens, token.IsReadable := by
  rw [Token.Scan.ofProgram, Token.Scan.ofText_outcome] at h
  exact fun token hmem => (Token.scan_isScanned h token hmem).isReadable

/-- The program of two texts has the forms of both, if the first is balanced. -/
theorem tree_append_of_balanced (h : (Token.Scan.ofProgram before).outcome = .ok tokens)
    (hbalance : Audit.balance tokens = []) (after : String) :
    Program.tree (before ++ "\n" ++ after) = do
      let first ← Program.tree before
      let second ← Program.tree after
      return .list (first.children ++ second.children) := by
  have hscan := Token.Scan.ofProgram_append_lineFeed before after
  have hreadable := isReadable_of_scan h
  rw [h] at hscan
  rw [Program.tree, Program.tree, Program.tree, hscan, h]
  cases hafter : (Token.Scan.ofProgram after).outcome with
  | error fault =>
    obtain ⟨tree, hread, -⟩ := exists_tree_of_scan h
    simp [Bind.bind, Except.bind, hread]
  | ok later =>
    obtain ⟨forms, others, hforms, hothers, hread⟩ :=
      Tree.read_append (Audit.balance_eq_nil_iff_nesting.mp hbalance)
        (List.forall_mem_append.mpr ⟨hreadable, isReadable_of_scan hafter⟩)
    simp only [Bind.bind, Except.bind, pure, Except.pure, hread, hforms, hothers]
    rfl

/-- Only the first of two texts is read if it has a closing parenthesis without partner. The second
still has to be scanned. -/
theorem tree_append_of_unmatched (h : (Token.Scan.ofProgram before).outcome = .ok tokens)
    {index : Nat} (hunmatched : .unmatchedClosing index ∈ Audit.balance tokens) (after : String) :
    Program.tree (before ++ "\n" ++ after) =
      (Token.Scan.ofProgram after).outcome >>= fun _ => Program.tree before := by
  have hscan := Token.Scan.ofProgram_append_lineFeed before after
  have hreadable := isReadable_of_scan h
  rw [h] at hscan
  rw [Program.tree, Program.tree, hscan, h]
  cases hafter : (Token.Scan.ofProgram after).outcome with
  | error fault => rfl
  | ok later =>
    obtain ⟨front, payload, rest, rfl, hfront⟩ := Audit.exists_unmatched_of_mem_balance hunmatched
    exact Tree.read_append_of_unmatched hfront
      (List.forall_mem_append.mpr ⟨hreadable, isReadable_of_scan hafter⟩)

/-- A list comes to the values of its forms. -/
theorem runTree_list_eq_ok_iff :
    (runTree .unlimited (.list forms)).outcome = .ok value ↔
      ∃ values, (Tree.courseEach forms 0).outcome = .ok values ∧ value = .list values := by
  have hrun : (runTree .unlimited (.list forms)).outcome =
      (Entry.program.course (.list forms)).outcome :=
    (Evaluator.enter_unlimited 0 .program _).1
  rw [hrun, Tree.list, Entry.course, Course.outcome_note, Course.outcome_bind_eq_ok]
  constructor
  · rintro ⟨values, hvalues, hvalue⟩
    cases hvalue
    exact ⟨values, hvalues, rfl⟩
  · rintro ⟨values, hvalues, rfl⟩
    exact ⟨values, hvalues, rfl⟩

/-- A list takes one step, and the steps of its forms. -/
theorem steps_runTree_list (forms : List Tree) :
    (runTree .unlimited (.list forms)).steps = (Tree.courseEach forms 0).steps + 1 := by
  have hrun : (runTree .unlimited (.list forms)).steps =
      (Entry.program.course (.list forms)).steps :=
    (Evaluator.enter_unlimited 0 .program _).2
  rw [hrun, Tree.list, Course.steps, Entry.depths_program]
  rfl

/-- The forms of two programs come to the values of the first and then to those of the second. -/
theorem runTree_append_eq_ok_iff :
    (runTree .unlimited (.list (forms ++ others))).outcome = .ok value ↔
      ∃ first second, (runTree .unlimited (.list forms)).outcome = .ok first ∧
        (runTree .unlimited (.list others)).outcome = .ok second ∧
        value = .list (first.children ++ second.children) := by
  simp only [runTree_list_eq_ok_iff, Tree.courseEach_append, Course.outcome_bind_eq_ok]
  constructor
  · rintro ⟨values, ⟨values', hforms, later, hothers, hvalues⟩, rfl⟩
    cases hvalues
    exact ⟨_, _, ⟨values', hforms, rfl⟩, ⟨later, hothers, rfl⟩, rfl⟩
  · rintro ⟨first, second, ⟨values, hforms, rfl⟩, ⟨later, hothers, rfl⟩, rfl⟩
    exact ⟨_, ⟨values, hforms, later, hothers, rfl⟩, rfl⟩

/-- The program with the forms of two programs takes the steps of both, but its root is one. -/
theorem steps_runTree_append (h : (runTree .unlimited (.list forms)).outcome = .ok value)
    (others : List Tree) :
    (runTree .unlimited (.list (forms ++ others))).steps + 1 =
      (runTree .unlimited (.list forms)).steps + (runTree .unlimited (.list others)).steps := by
  obtain ⟨values, hforms, -⟩ := runTree_list_eq_ok_iff.mp h
  have hsteps : (Tree.courseEach (forms ++ others) 0).steps =
      (Tree.courseEach forms 0).steps + (Tree.courseEach others 0).steps := by
    simp only [Course.steps]
    rw [Tree.courseEach_append, Course.depths_bind, hforms, List.length_append]
    exact congrArg (_ + ·.length) (Course.depths_bind_pure _ _)
  rw [steps_runTree_list, steps_runTree_list, steps_runTree_list, hsteps]
  omega

/-- **Programs compose.** Without limits, a program text that leaves no list open and closes none
too many can be followed by any other on a new line: the whole comes to a value exactly when both
do, which is then the list of the values of both, and it takes one step less than both together. If
the first text has a closing parenthesis without partner, what comes of the whole is what comes of
the first text, except that the second still has to be scanned. -/
theorem run_append_lineFeed (h : (Token.Scan.ofProgram before).outcome = .ok tokens)
    (after : String) :
    (Audit.balance tokens = [] →
      (∀ value, (run .unlimited (before ++ "\n" ++ after)).outcome = .ok value ↔
        ∃ first second, (run .unlimited before).outcome = .ok first ∧
          (run .unlimited after).outcome = .ok second ∧
          value = .list (first.children ++ second.children)) ∧
      ∀ first second, (run .unlimited before).outcome = .ok first →
        (run .unlimited after).outcome = .ok second →
        (run .unlimited (before ++ "\n" ++ after)).steps + 1 =
          (run .unlimited before).steps + (run .unlimited after).steps) ∧
    ∀ index, .unmatchedClosing index ∈ Audit.balance tokens →
      (∀ later, (Token.Scan.ofProgram after).outcome = .ok later →
        (run .unlimited (before ++ "\n" ++ after)).outcome = (run .unlimited before).outcome) ∧
      ∀ fault, (Token.Scan.ofProgram after).outcome = .error fault →
        (run .unlimited (before ++ "\n" ++ after)).outcome = .error fault ∧
          fault.family = .literal := by
  obtain ⟨_, -, hbefore, forms, rfl, -⟩ := exists_tree_of_scan h
  refine ⟨fun hbalance => ?_, fun index hunmatched => ?_⟩
  · have hwhole := tree_append_of_balanced h hbalance after
    rw [hbefore] at hwhole
    cases hscan : (Token.Scan.ofProgram after).outcome with
    | error fault =>
      have hfails : Program.tree (before ++ "\n" ++ after) = .error fault := by
        rw [hwhole, tree_eq_error_iff.mpr hscan]
        rfl
      simp [run_of_scan_error (tree_eq_error_iff.mp hfails), run_of_scan_error hscan]
    | ok later =>
      obtain ⟨_, -, hafter, others, rfl, -⟩ := exists_tree_of_scan hscan
      have htree : Program.tree (before ++ "\n" ++ after) = .ok (.list (forms ++ others)) := by
        rw [hwhole, hafter]
        rfl
      simp only [run_of_tree hbefore, run_of_tree hafter, run_of_tree htree]
      refine ⟨fun value => runTree_append_eq_ok_iff, ?_⟩
      intro first second hfirst _
      exact steps_runTree_append hfirst others
  · have hwhole := tree_append_of_unmatched h hunmatched after
    refine ⟨fun later hscan => ?_, fun fault hscan => ?_⟩
    · have htree : Program.tree (before ++ "\n" ++ after) = .ok (.list forms) := by
        rw [hwhole, hscan, ← hbefore]
        rfl
      rw [(run_of_tree htree _).1, (run_of_tree hbefore _).1]
    · have hfails : Program.tree (before ++ "\n" ++ after) = .error fault := by
        rw [hwhole, hscan]
        rfl
      refine ⟨run_of_scan_error (tree_eq_error_iff.mp hfails) _, ?_⟩
      rw [Token.Scan.ofProgram_outcome] at hscan
      obtain ⟨digits, -, rfl⟩ := Token.exists_digits_of_scan_eq_error hscan
      rfl

/-- `(+ 1 2) ;(` and `x (4)` come to `(3 (4))` together, in 7 steps, one less than 4 + 4. In
`1) (+` the closing parenthesis has no partner, so that `7` on a line after it is not read. -/
theorem run_append_lineFeed_of_comment :
    ((Token.Scan.ofProgram "(+ 1 2) ;(").outcome =
        .ok [.opening none, .word (some "+"), .number 1, .number 2, .closing none] ∧
      Audit.balance [.opening none, .word (some "+"), .number 1, .number 2, .closing none] = [] ∧
      (run .unlimited ("(+ 1 2) ;(" ++ "\n" ++ "x (4)")).outcome =
        .ok (.list [.number 3, .list [.number 4]]) ∧
      (run .unlimited ("(+ 1 2) ;(" ++ "\n" ++ "x (4)")).steps + 1 =
        (run .unlimited "(+ 1 2) ;(").steps + (run .unlimited "x (4)").steps) ∧
    (Token.Scan.ofProgram "1) (+").outcome =
        .ok [.number 1, .closing none, .opening none, .word (some "+")] ∧
      .unmatchedClosing 1 ∈
        Audit.balance [.number 1, .closing none, .opening none, .word (some "+")] ∧
      (run .unlimited ("1) (+" ++ "\n" ++ "7")).outcome = (run .unlimited "1) (+").outcome := by
  have hscan : (Token.Scan.ofProgram "(+ 1 2) ;(").outcome =
      .ok [.opening none, .word (some "+"), .number 1, .number 2, .closing none] := by rfl
  have hbalance : Audit.balance
      [.opening none, .word (some "+"), .number 1, .number 2, .closing none] = [] := by rfl
  have hfirst : (run .unlimited "(+ 1 2) ;(").outcome = .ok (.list [.number 3]) :=
    run_eq_ok_iff.mpr
      ⟨.list [.list [.word (some "+"), .number 1, .number 2]], by rfl, by rfl⟩
  have hsecond : (run .unlimited "x (4)").outcome = .ok (.list [.list [.number 4]]) :=
    run_eq_ok_iff.mpr ⟨.list [.word (some "x"), .list [.number 4]], by rfl, by rfl⟩
  have hscan' : (Token.Scan.ofProgram "1) (+").outcome =
      .ok [.number 1, .closing none, .opening none, .word (some "+")] := by rfl
  have hunmatched : .unmatchedClosing 1 ∈
      Audit.balance [.number 1, .closing none, .opening none, .word (some "+")] := by decide
  obtain ⟨hvalue, hsteps⟩ := (run_append_lineFeed hscan "x (4)").1 hbalance
  exact ⟨⟨hscan, hbalance, (hvalue _).mpr ⟨_, _, hfirst, hsecond, rfl⟩,
      hsteps _ _ hfirst hsecond⟩,
    hscan', hunmatched,
    ((run_append_lineFeed hscan' "7").2 1 hunmatched).1 [.number 7] (by rfl)⟩

end Program

end PlusLisp
