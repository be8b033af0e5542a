import PlusLisp.Proofs.Program.Faults
import PlusLisp.Proofs.Token.Nesting
import PlusLisp.Proofs.Token.Spacing

/-!
The size of a program. A program has one node for its root and one for each token that it was read
from, closing parentheses apart (`Tree.size_read`), so that no text has more nodes than characters,
but for the root. Limits are thus never breached by numbers that are too long to be written, if the
limits themselves and the length of the text are not.

Main statement: `Program.canBeWorded_of_run`.
-/

namespace PlusLisp

/-! ### Nodes and tokens -/

/-- The number of nodes that tokens make: one for each that is no closing parenthesis. -/
def Token.nodes (tokens : List Token) : Nat := tokens.countP fun token => !token.isClosing

theorem Token.nodes_cons (token : Token) (tokens : List Token) :
    nodes (token :: tokens) = nodes tokens + if token.isClosing then 0 else 1 := by
  rw [nodes, List.countP_cons]
  cases token.isClosing <;> rfl

namespace Tree

/-- The number of nodes in the trees of an unfinished reading and in its open lists. -/
def sizeTaken : List Tree → List (List Tree) → Nat
  | current, [] => sizeEach current
  | current, outer :: around => sizeEach current + 1 + sizeTaken outer around

theorem sizeTaken_cons (tree : Tree) (current : List Tree) (around : List (List Tree)) :
    sizeTaken (tree :: current) around = tree.size + sizeTaken current around := by
  cases around with
  | nil => rfl
  | cons outer around =>
    rw [sizeTaken, sizeTaken, sizeEach]
    omega

theorem sizeEach_closeAll (current : List Tree) (around : List (List Tree)) :
    sizeEach (closeAll current around) = sizeTaken current around := by
  induction around generalizing current with
  | nil => exact sizeEach_reverse current
  | cons outer around ih =>
    rw [closeAll, ih, sizeTaken_cons, list, size, sizeEach_reverse]
    rfl

/-- Every token that a reading takes is a node more, except for closing parentheses. -/
theorem size_readInto {tokens : List Token} {current : List Tree} {around : List (List Tree)}
    {tree : Tree} (h : (readInto tokens current around).outcome = .ok tree) :
    tree.size + Token.nodes (readInto tokens current around).rest =
      1 + sizeTaken current around + Token.nodes tokens := by
  induction tokens generalizing current around with
  | nil =>
    have hclosed : tree.size = 1 + sizeTaken current around := by
      rw [← sizeEach_closeAll, Nat.add_comm]
      cases around <;> cases h <;> rfl
    cases around <;> exact congrArg (· + 0) hclosed
  | cons token tokens ih =>
    cases token with
    | opening payload =>
      have hrest := ih h
      rw [sizeTaken, sizeEach] at hrest
      have hopening : Token.nodes (.opening payload :: tokens) = Token.nodes tokens + 1 :=
        Token.nodes_cons _ _
      exact hrest.trans (by omega)
    | closing payload =>
      cases around with
      | nil =>
        cases h
        rw [list, size, sizeEach_closeAll]
        exact congrArg (· + _) (Nat.add_comm _ _)
      | cons outer around =>
        have hrest := ih h
        rw [sizeTaken_cons, list, size, sizeEach_reverse] at hrest
        have hclosing : Token.nodes (.closing payload :: tokens) = Token.nodes tokens :=
          Token.nodes_cons _ _
        exact hrest.trans (by rw [sizeTaken]; omega)
    | number value =>
      have hrange : Signed64.InRange value := by
        by_contra hout
        rw [readInto.eq_def] at h
        simp only [if_neg hout] at h
        cases h
      have hstep : readInto (.number value :: tokens) current around =
          readInto tokens (number value :: current) around := if_pos hrange
      rw [hstep] at h ⊢
      have hrest := ih h
      rw [sizeTaken_cons] at hrest
      have hnumber : Token.nodes (.number value :: tokens) = Token.nodes tokens + 1 :=
        Token.nodes_cons _ _
      have hsize : (number value).size = 1 := rfl
      omega
    | word text =>
      have hrest := ih h
      rw [sizeTaken_cons] at hrest
      have hword : Token.nodes (.word text :: tokens) = Token.nodes tokens + 1 :=
        Token.nodes_cons _ _
      have hsize : (word text).size = 1 := rfl
      exact hrest.trans (by omega)
    | unknown kind value => cases h

/-- A program has a node for its root and one for each token that was taken, but for closing
parentheses. -/
theorem size_read {tokens : List Token} {tree : Tree} (h : (read tokens).outcome = .ok tree) :
    tree.size + Token.nodes (read tokens).rest = 1 + Token.nodes tokens :=
  size_readInto h

mutual

/-- There is a node on every level. -/
theorem height_le_size : ∀ tree : Tree, tree.height ≤ tree.size
  | node _ children => by
    rw [height, size]
    exact Nat.succ_le_succ (heightEach_le_sizeEach children)

private theorem heightEach_le_sizeEach : ∀ trees : List Tree, heightEach trees ≤ sizeEach trees
  | [] => Nat.le_refl 0
  | tree :: trees => by
    have htree := height_le_size tree
    have htrees := heightEach_le_sizeEach trees
    rw [heightEach, sizeEach]
    omega

end

end Tree

/-! ### Nodes and characters -/

/-- A text is scanned to no more tokens than it has characters. -/
theorem Token.length_le_of_scan {text : List Char} {tokens : List Token}
    (h : scan text = .ok tokens) : tokens.length ≤ text.length := by
  obtain ⟨lexemes, hsplit, -, rfl⟩ := scan_eq_ok_iff.mp h
  refine Nat.le_trans (List.length_filterMap_le _ _) ?_
  clear h
  induction hsplit with
  | nil => exact Nat.le_refl 0
  | cons hformed _ _ ih =>
    rw [List.length_cons, List.length_append]
    have hchars := List.length_pos_of_ne_nil (Lexeme.chars_ne_nil hformed)
    omega

namespace Program

variable {limits : Limits} {text : String} {tree : Tree} {fault : Fault}

/-- Apart from its root, a program has no more nodes than its text has characters. -/
theorem size_le (h : Program.tree text = .ok tree) : tree.size ≤ text.length + 1 := by
  cases hscan : (Token.Scan.ofProgram text).outcome with
  | error fault =>
    rw [tree_eq_error_iff.mpr hscan] at h
    cases h
  | ok tokens =>
    obtain ⟨tree', hread, htree, -⟩ := exists_tree_of_scan hscan
    cases h.symm.trans htree
    rw [Token.Scan.ofProgram_outcome] at hscan
    have hlength := Token.length_le_of_scan hscan
    have hnodes : Token.nodes tokens ≤ tokens.length := List.countP_le_length
    have hsize := Tree.size_read hread
    rw [String.length_toList] at hlength
    omega

end Program

/-! ### Faults that can be worded -/

/-- Holds of the limits that can be written. -/
def Limits.IsWritable (limits : Limits) : Prop :=
  ∀ n, n ∈ limits.depth ∨ n ∈ limits.steps → Text.IsWritable n

/-- What limits stop at can be worded if the limits, the depths and the number of nodes can be
written. -/
theorem Limits.Fares.canBeWorded {limits : Limits} {depths : List Int} {spent : Nat}
    {fault : Fault} (h : limits.Fares 0 depths (some fault) spent)
    (hlimits : limits.IsWritable)
    (hdepths : ∀ depth ∈ depths, Text.IsWritable depth) (hcount : Text.IsWritable depths.length) :
    fault.CanBeWorded := by
  cases h with
  | @stopped before after depth _ hsplit hallows hbreach =>
    obtain ⟨limit, hlimit, -, rfl⟩ | ⟨limit, hlimit, -, rfl⟩ := breach?_eq_some hbreach
    · refine List.forall_mem_cons.mpr ⟨hdepths depth ?_, List.forall_mem_singleton.mpr
        (hlimits limit (.inl hlimit))⟩
      rw [hsplit]
      exact List.mem_append_right _ List.mem_cons_self
    · refine List.forall_mem_cons.mpr ⟨?_, List.forall_mem_singleton.mpr
        (hlimits limit (.inr hlimit))⟩
      refine Nat.lt_of_le_of_lt ?_ hcount
      rw [hsplit, List.length_append, List.length_cons]
      omega

/-- Trees that reading builds have no numbers out of range. -/
theorem Tree.BuiltFrom.numbersInRange {tree : Tree} (h : tree.BuiltFrom Token.IsReadable) :
    Audit.NumbersInRange tree := by
  intro n children hmem
  exact (h.of_mem_subtrees hmem).number_of_node

/-- What a tree can be blamed for can be worded if its numbers are in range. -/
theorem Tree.Cause.canBeWorded {tree : Tree} {fault : Fault} (h : tree.Cause fault)
    (hrange : Audit.NumbersInRange tree) : fault.CanBeWorded := by
  cases h with
  | unknownTree => exact List.forall_mem_nil _
  | @missingOperands value members _ _ hshort =>
    refine List.forall_mem_singleton.mpr (Text.isWritable_of_natAbs_lt ?_)
    omega
  | integerOutOfRange hleft hright =>
    exact List.forall_mem_singleton.mpr (Audit.isWritable_sum hrange hleft hright)

namespace Program

variable {limits : Limits} {text : String} {tree : Tree} {fault : Fault}

theorem canBeWorded_of_runTree (hlimits : limits.IsWritable)
    (hrange : Audit.NumbersInRange tree) (hsize : Text.IsWritable tree.size)
    (h : (runTree limits tree).outcome = .error fault) : fault.CanBeWorded := by
  have hstarts := Entry.program.startsAt_course tree
  have hwithin := Entry.program.within_course tree
  have hfollow : (limits.follow (Entry.program.course tree) ⟨0, []⟩).1 = .error fault := by
    rw [← h]
    exact congrArg Evaluation.outcome
      (@Evaluator.enter_eq_follow ⟨limits, 0⟩ .program tree).symm
  by_cases hallows : limits.Allows 0 (Entry.program.course tree).depths
  · obtain ⟨log, hfree⟩ := hstarts.follow_of_allows hallows
    rw [hfree] at hfollow
    exact (Tree.cause_of_course hfollow).canBeWorded hrange
  · obtain ⟨fault', spent, log, hstopped, hfares⟩ := hstarts.follow_of_not_allows hallows
    rw [hstopped] at hfollow
    cases hfollow
    refine hfares.canBeWorded hlimits ?_ (Nat.lt_of_le_of_lt hwithin.few hsize)
    intro depth hmem
    have hlow := hstarts.descends.least depth hmem
    have hhigh := hwithin.shallow depth hmem
    have hheight := tree.height_le_size
    refine Nat.lt_of_le_of_lt ?_ hsize
    omega

/-- **What stops a program text can be worded**, if its limits and its length can be written. It is
then answered as what it is: a run of digits that stands for too much, a sum out of range or without
its operands, or a limit. -/
theorem canBeWorded_of_run (hlimits : limits.IsWritable)
    (hlength : Text.IsWritable (text.length + 1 : Nat))
    (h : (run limits text).outcome = .error fault) : fault.CanBeWorded := by
  cases hscan : (Token.Scan.ofProgram text).outcome with
  | error fault' =>
    rw [run_of_scan_error hscan] at h
    cases h
    rw [Token.Scan.ofProgram_outcome] at hscan
    obtain ⟨digits, -, rfl⟩ := Token.exists_digits_of_scan_eq_error hscan
    exact List.forall_mem_nil _
  | ok tokens =>
    obtain ⟨tree, -, htree, forms, rfl, hforms⟩ := exists_tree_of_scan hscan
    rw [(run_of_tree htree limits).1] at h
    have hbuilt := (Tree.BuiltFrom.list hforms).mono fun token => Token.IsScanned.isReadable
    exact canBeWorded_of_runTree hlimits hbuilt.numbersInRange
      (Nat.lt_of_le_of_lt (size_le htree) hlength) h

end Program

end PlusLisp
