import PlusLisp.Proofs.Evaluation.FirstFailure
import PlusLisp.Proofs.Evaluation.Keeps
import PlusLisp.Proofs.Evaluation.Values
import PlusLisp.Proofs.Program.RoundTrip
import PlusLisp.Proofs.Token.Lines

/-!
Runs of program texts, stage by stage: a text that is scanned is also read, and a text that is read
is run as its tree. What comes of a run is a program again (`Program.isCanonical_of_run`).
-/

namespace PlusLisp

/-! ### From texts to trees -/

namespace Program

variable {limits : Limits} {text : String} {tokens : List Token} {tree value : Tree}
  {fault : Fault}

/-- What is scanned is also read. -/
theorem exists_tree_of_scan (h : (Token.Scan.ofProgram text).outcome = .ok tokens) :
    ∃ tree, (Tree.read tokens).outcome = .ok tree ∧ Program.tree text = .ok tree ∧
      tree.IsCanonical := by
  have hscan := h
  rw [Token.Scan.ofProgram, Token.Scan.ofText_outcome] at hscan
  obtain ⟨tree, hread, hcanonical⟩ := Tree.read_isCanonical (Token.scan_isScanned hscan)
  refine ⟨tree, hread, ?_, hcanonical⟩
  rw [Program.tree, h]
  exact hread

/-- A text is not read exactly when it is not scanned. -/
theorem tree_eq_error_iff :
    Program.tree text = .error fault ↔ (Token.Scan.ofProgram text).outcome = .error fault := by
  cases hscan : (Token.Scan.ofProgram text).outcome with
  | error fault' =>
    simp [Program.tree, hscan, Bind.bind, Except.bind]
  | ok tokens =>
    obtain ⟨tree, -, htree, -⟩ := exists_tree_of_scan hscan
    simp [htree]

/-- The run of a text is the run of its tree. -/
theorem run_of_tree (h : Program.tree text = .ok tree) (limits : Limits) :
    (run limits text).outcome = (runTree limits tree).outcome ∧
      (run limits text).steps = (runTree limits tree).steps := by
  cases hscan : (Token.Scan.ofProgram text).outcome with
  | error fault =>
    rw [tree_eq_error_iff.mpr hscan] at h
    cases h
  | ok tokens =>
    obtain ⟨tree', hread, htree, -⟩ := exists_tree_of_scan hscan
    cases h.symm.trans htree
    simp [run, hscan, hread]

theorem run_of_scan_error (h : (Token.Scan.ofProgram text).outcome = .error fault)
    (limits : Limits) : (run limits text).outcome = .error fault := by
  rw [run, h]

/-- A run comes to a value exactly when there is a tree to run and that comes to it. -/
theorem run_eq_ok_iff :
    (run limits text).outcome = .ok value ↔
      ∃ tree, Program.tree text = .ok tree ∧ (runTree limits tree).outcome = .ok value := by
  cases htree : Program.tree text with
  | error fault =>
    rw [run_of_scan_error (tree_eq_error_iff.mp htree)]
    simp
  | ok tree =>
    rw [(run_of_tree htree limits).1]
    simp

end Program

/-! ### What runs come to -/

namespace Tree

variable {P : Token → Prop} {tree part : Tree}

theorem BuiltFrom.number_of_node {n : Int} {children : List Tree}
    (h : (node (.number n) children).BuiltFrom P) : P (.number n) := by
  cases h with
  | number hn => exact hn

/-- The parts of a tree that reading builds are such trees. -/
theorem BuiltFrom.of_mem_subtrees (h : tree.BuiltFrom P) (hmem : part ∈ tree.subtrees) :
    part.BuiltFrom P := by
  induction h with
  | number hn =>
    cases List.mem_singleton.mp (subtrees_eq _ ▸ hmem)
    exact .number hn
  | word htext =>
    cases List.mem_singleton.mp (subtrees_eq _ ▸ hmem)
    exact .word htext
  | list hmembers ih =>
    rw [subtrees_eq, List.mem_cons, List.mem_flatMap] at hmem
    obtain rfl | ⟨member, hmember, hmem⟩ := hmem
    · exact .list hmembers
    · exact ih member hmember hmem

/-- Evaluation builds trees from numbers of a class, if that is closed under sums. -/
theorem keeps_builtFrom
    (hclosed : ∀ m n, P (.number m) → P (.number n) → Signed64.InRange (m + n) →
      P (.number (m + n))) : Keeps fun value => value = null ∨ value.BuiltFrom P where
  null := .inl rfl
  sum left right value hleft hright hsum := by
    obtain rfl | ⟨m, children, n, children', rfl, rfl, hrange, rfl⟩ := sum_eq_ok hsum
    · exact .inl rfl
    · have hm := (hleft.resolve_left (by simp [null])).number_of_node
      have hn := (hright.resolve_left (by simp [null])).number_of_node
      exact .inr (.number (hclosed m n hm hn hrange))
  list values hvalues := by
    refine .inr (.list fun value hmem => ?_)
    obtain ⟨rfl | hbuilt, hsome⟩ := hvalues value hmem
    · cases hsome
    · exact hbuilt

end Tree

/-- Sums of scanned numbers are scanned numbers, if they are numbers at all. -/
theorem Token.IsScanned.add {m n : Int} (hm : (Token.number m).IsScanned)
    (hn : (Token.number n).IsScanned) (hrange : Signed64.InRange (m + n)) :
    (Token.number (m + n)).IsScanned :=
  ⟨Int.add_nonneg hm.1 hn.1, hrange.2⟩

namespace Program

variable {limits : Limits} {text : String} {tree value : Tree}

/-- A tree is run to the value of its course, if the limits allow all steps of that. -/
theorem runTree_eq_ok_iff :
    (runTree limits tree).outcome = .ok value ↔
      (Entry.program.course tree).outcome = .ok value ∧
        limits.Allows 0 (Entry.program.course tree).depths :=
  @Evaluator.enter_eq_ok_iff ⟨limits, 0⟩ .program tree value

/-- What comes of a program is a program again. -/
theorem isCanonical_of_runTree (h : tree.IsCanonical)
    (hvalue : (runTree limits tree).outcome = .ok value) : value.IsCanonical := by
  obtain ⟨forms, rfl, hforms⟩ := h
  obtain ⟨hcourse, -⟩ := runTree_eq_ok_iff.mp hvalue
  obtain ⟨values, rfl⟩ := Entry.exists_list_of_program hcourse
  have hkept := (Tree.keeps_builtFrom fun _ _ => Token.IsScanned.add).of_course
    (fun part hmem _ => .inr ((Tree.BuiltFrom.list hforms).of_mem_subtrees hmem)) hcourse
  obtain hnull | hbuilt := hkept
  · cases hnull
  · cases hbuilt with
    | list hvalues => exact ⟨values, rfl, hvalues⟩

/-- What comes of a program text is a program. -/
theorem isCanonical_of_run (h : (run limits text).outcome = .ok value) : value.IsCanonical := by
  obtain ⟨tree, htree, hvalue⟩ := run_eq_ok_iff.mp h
  exact isCanonical_of_runTree (isCanonical_of_tree htree) hvalue

/-- What comes of a program text is a value. -/
theorem isValue_of_run (h : (run limits text).outcome = .ok value) : value.IsValue := by
  obtain ⟨tree, -, hvalue⟩ := run_eq_ok_iff.mp h
  exact (Entry.comesOf_course (runTree_eq_ok_iff.mp hvalue).1).isValue

end Program

end PlusLisp
