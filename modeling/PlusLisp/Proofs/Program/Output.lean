import PlusLisp.Proofs.Program.Runs

/-!
The output of a program is a program for itself. A program comes to a list that reading could have
built and that is a value. As a program, it is read back from its source text and comes to itself.

Main statement: `Program.run_sourceText_of_run`.
-/

namespace PlusLisp

/-- A program and the one whose only form it is have the same text. -/
theorem Tree.formsText_list_singleton (tree : Tree) : (list [tree]).formsText = tree.sourceText :=
  String.intercalate_singleton

theorem Tree.sourceText_list_singleton (tree : Tree) :
    (list [tree]).sourceText = "(" ++ tree.sourceText ++ ")" := by
  rw [list, sourceText, List.map_singleton, String.intercalate_singleton]

theorem Tree.IsCanonical.list_singleton {tree : Tree} (h : tree.IsCanonical) :
    (list [tree]).IsCanonical := by
  obtain ⟨forms, rfl, hforms⟩ := h
  exact ⟨[list forms], rfl, List.forall_mem_singleton.mpr (.list hforms)⟩

namespace Program

variable {limits : Limits} {text : String} {value : Tree}

/-- A program that is a value comes to itself. -/
theorem runTree_of_isValue (h : value.IsValue) : (runTree .unlimited value).outcome = .ok value :=
  (Evaluator.enter_unlimited 0 .program value).1.trans (h.course_eq .program).1

/-- A program that is a value comes to itself when it is read from its text. -/
theorem run_formsText (hvalue : value.IsValue) (hcanonical : value.IsCanonical) :
    (run .unlimited value.formsText).outcome = .ok value :=
  run_eq_ok_iff.mpr ⟨value, tree_formsText_of_isCanonical hcanonical, runTree_of_isValue hvalue⟩

/-- A line feed at the end of a program text makes no difference. -/
theorem tree_lineFeed (text : String) : Program.tree (text ++ "\n") = Program.tree text := by
  rw [Program.tree, Program.tree, Token.Scan.ofProgram_lineFeed]

/-- **The output of a program is a program for itself.** The source text of what a program text
comes to, with or without a line feed after it, comes to a list of just that, which prints as the
same text between parentheses; and the source texts of its members come to it. -/
theorem run_sourceText_of_run (h : (run limits text).outcome = .ok value) :
    (run .unlimited value.sourceText).outcome = .ok (.list [value]) ∧
      (run .unlimited (value.sourceText ++ "\n")).outcome = .ok (.list [value]) ∧
      (Tree.list [value]).sourceText = "(" ++ value.sourceText ++ ")" ∧
      (run .unlimited value.formsText).outcome = .ok value := by
  have hcanonical := isCanonical_of_run h
  have hvalue := isValue_of_run h
  have hlist : (Tree.list [value]).IsValue := by
    obtain ⟨forms, rfl, -⟩ := hcanonical
    exact .list (List.forall_mem_singleton.mpr hvalue) (List.forall_mem_singleton.mpr rfl)
  have hrun : (run .unlimited value.sourceText).outcome = .ok (.list [value]) := by
    rw [← Tree.formsText_list_singleton]
    exact run_formsText hlist hcanonical.list_singleton
  refine ⟨hrun, ?_, value.sourceText_list_singleton, run_formsText hvalue hcanonical⟩
  rw [run_eq_ok_iff, tree_lineFeed, ← run_eq_ok_iff]
  exact hrun

/-- The program `(+ 1 2) x ((3) -4)` comes to `(3 ((3)))`, in as many steps as it is allowed. -/
theorem run_sourceText_of_run_sum :
    (run ⟨some 3, some 9⟩ "(+ 1 2) x ((3) -4)").outcome =
        .ok (.list [.number 3, .list [.list [.number 3]]]) ∧
      (run .unlimited (Tree.list [.number 3, .list [.list [.number 3]]]).sourceText).outcome =
        .ok (.list [.list [.number 3, .list [.list [.number 3]]]]) := by
  have hrun : (run ⟨some 3, some 9⟩ "(+ 1 2) x ((3) -4)").outcome =
      .ok (.list [.number 3, .list [.list [.number 3]]]) := by
    refine run_eq_ok_iff.mpr ⟨.list [.list [.word (some "+"), .number 1, .number 2],
      .word (some "x"), .list [.list [.number 3], .word (some "-4")]], ?_, ?_⟩
    · rfl
    · rfl
  exact ⟨hrun, (run_sourceText_of_run hrun).1⟩

end Program

end PlusLisp
