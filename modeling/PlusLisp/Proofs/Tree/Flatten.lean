import PlusLisp.Tree.Reader

/-!
The tokens of a tree, and reading as the way back from them.

Trees that reading builds are lists without value over childless numbers and words
(`BuiltFrom`). Reading takes the tokens of such a tree for the tree (`readInto_flatten`), and
nothing but such trees comes out of a reading (`readInto_builtFrom`).
-/

namespace PlusLisp

/-- Holds of the tokens that a reading accepts. -/
def Token.IsReadable : Token → Prop
  | .opening _ | .closing _ | .word _ => True
  | .number value => Signed64.InRange value
  | .unknown _ _ => False

namespace Tree

/-! ### Tokens of trees -/

mutual

/-- The tokens that a tree is read from. Nodes that are never read have none. -/
def flatten : Tree → List Token
  | node (.number value) _ => [.number value]
  | node (.word text) _ => [.word text]
  | node (.list _) children => .opening none :: flattenEach children ++ [.closing none]
  | node (.null _) _ | node (.unknown _ _) _ => []

/-- The tokens of a sequence of trees. -/
def flattenEach : List Tree → List Token
  | [] => []
  | tree :: trees => flatten tree ++ flattenEach trees

end

@[simp] theorem flatten_number (value : Int) : (number value).flatten = [.number value] := rfl

@[simp] theorem flatten_list (children : List Tree) :
    (list children).flatten = .opening none :: flattenEach children ++ [.closing none] := rfl

theorem flattenEach_cons (tree : Tree) (trees : List Tree) :
    flattenEach (tree :: trees) = tree.flatten ++ flattenEach trees := rfl

/-! ### Trees that reading builds -/

/-- Holds of the trees that reading builds from tokens of which the numbers and words are of some
class. -/
inductive BuiltFrom (P : Token → Prop) : Tree → Prop
  | number {value : Int} : P (.number value) → BuiltFrom P (number value)
  | word {text : Option String} : P (.word text) → BuiltFrom P (word text)
  | list {children : List Tree} : (∀ child ∈ children, BuiltFrom P child) →
      BuiltFrom P (list children)

theorem BuiltFrom.mono {P Q : Token → Prop} (hPQ : ∀ token, P token → Q token) {tree : Tree}
    (h : tree.BuiltFrom P) : tree.BuiltFrom Q := by
  induction h with
  | number hvalue => exact .number (hPQ _ hvalue)
  | word htext => exact .word (hPQ _ htext)
  | list _ ih => exact .list ih

/-! ### Reading -/

section Reading

variable {P : Token → Prop} {rest : List Token} {current : List Tree} {around : List (List Tree)}

theorem readInto_flattenEach {trees : List Tree}
    (h : ∀ tree ∈ trees, ∀ rest current around,
      readInto (tree.flatten ++ rest) current around = readInto rest (tree :: current) around) :
    readInto (flattenEach trees ++ rest) current around =
      readInto rest (trees.reverse ++ current) around := by
  induction trees generalizing current with
  | nil => rfl
  | cons tree trees ih =>
    rw [List.forall_mem_cons] at h
    obtain ⟨htree, htrees⟩ := h
    rw [flattenEach_cons, List.append_assoc, htree, ih htrees, List.reverse_cons, List.append_assoc]
    rfl

/-- Reading takes the tokens of a tree for the tree, whatever lists are open. -/
theorem readInto_flatten {tree : Tree} (h : tree.BuiltFrom Token.IsReadable) (rest : List Token)
    (current : List Tree) (around : List (List Tree)) :
    readInto (tree.flatten ++ rest) current around = readInto rest (tree :: current) around := by
  induction h generalizing rest current around with
  | number hvalue =>
    have hrange : Signed64.InRange _ := hvalue
    rw [flatten_number, List.singleton_append, readInto.eq_def]
    exact if_pos hrange
  | word _ => rfl
  | @list children _ ih =>
    calc readInto ((list children).flatten ++ rest) current around
        = readInto (flattenEach children ++ .closing none :: rest) [] (current :: around) := by
          rw [flatten_list, List.cons_append, List.cons_append, List.append_assoc]
          rfl
      _ = readInto (.closing none :: rest) (children.reverse ++ []) (current :: around) :=
          readInto_flattenEach ih
      _ = readInto rest (list children :: current) around := by
          rw [readInto, List.append_nil, List.reverse_reverse]

/-- The tokens of the forms of a program are read as the program, to their end. -/
theorem read_flattenEach {forms : List Tree}
    (h : ∀ form ∈ forms, form.BuiltFrom Token.IsReadable) :
    read (flattenEach forms) = ⟨.ok (list forms), [], [.read forms.length]⟩ := by
  have hread : readInto (flattenEach forms ++ []) [] [] = readInto [] (forms.reverse ++ []) [] :=
    readInto_flattenEach fun form hform => readInto_flatten (h form hform)
  rw [List.append_nil, List.append_nil] at hread
  rw [read, hread, readInto, finishReading, closeAll, List.reverse_reverse]
  rfl

theorem closeAll_builtFrom (hcurrent : ∀ tree ∈ current, tree.BuiltFrom P)
    (haround : ∀ outer ∈ around, ∀ tree ∈ outer, tree.BuiltFrom P) :
    ∀ tree ∈ closeAll current around, tree.BuiltFrom P := by
  induction around generalizing current with
  | nil =>
    intro tree hmem
    exact hcurrent tree (List.mem_reverse.mp hmem)
  | cons outer around ih =>
    rw [List.forall_mem_cons] at haround
    obtain ⟨houter, haround⟩ := haround
    apply ih _ haround
    rw [List.forall_mem_cons]
    exact ⟨.list fun child hmem => hcurrent child (List.mem_reverse.mp hmem), houter⟩

theorem finishReading_builtFrom (hcurrent : ∀ tree ∈ current, tree.BuiltFrom P)
    (haround : ∀ outer ∈ around, ∀ tree ∈ outer, tree.BuiltFrom P) (log : List Event) :
    ∃ forms, (finishReading current around rest log).outcome = .ok (list forms) ∧
      ∀ form ∈ forms, form.BuiltFrom P :=
  ⟨closeAll current around, rfl, closeAll_builtFrom hcurrent haround⟩

/-- A reading of tokens that it accepts gives a program, built from the numbers and words among
the tokens and from the trees at hand. -/
theorem readInto_builtFrom {tokens : List Token} (hreadable : ∀ token ∈ tokens, token.IsReadable)
    (hP : ∀ token ∈ tokens, P token) (hcurrent : ∀ tree ∈ current, tree.BuiltFrom P)
    (haround : ∀ outer ∈ around, ∀ tree ∈ outer, tree.BuiltFrom P) :
    ∃ forms, (readInto tokens current around).outcome = .ok (list forms) ∧
      ∀ form ∈ forms, form.BuiltFrom P := by
  induction tokens generalizing current around with
  | nil =>
    cases around with
    | nil => exact finishReading_builtFrom hcurrent haround []
    | cons outer around => exact finishReading_builtFrom hcurrent haround _
  | cons token tokens ih =>
    rw [List.forall_mem_cons] at hreadable hP
    obtain ⟨hreadable, hreadables⟩ := hreadable
    obtain ⟨hP, hPs⟩ := hP
    have hnil : ∀ tree ∈ ([] : List Tree), tree.BuiltFrom P := by
      intro tree hmem
      cases hmem
    cases token with
    | opening payload =>
      exact ih hreadables hPs hnil (List.forall_mem_cons.mpr ⟨hcurrent, haround⟩)
    | closing payload =>
      cases around with
      | nil => exact finishReading_builtFrom hcurrent haround _
      | cons outer around =>
        rw [List.forall_mem_cons] at haround
        obtain ⟨houter, haround⟩ := haround
        have hlist : (list current.reverse).BuiltFrom P :=
          .list fun child hmem => hcurrent child (List.mem_reverse.mp hmem)
        exact ih hreadables hPs (List.forall_mem_cons.mpr ⟨hlist, houter⟩) haround
    | number value =>
      have hrange : Signed64.InRange value := hreadable
      rw [readInto]
      simp only [if_pos hrange]
      exact ih hreadables hPs (List.forall_mem_cons.mpr ⟨.number hP, hcurrent⟩) haround
    | word text => exact ih hreadables hPs (List.forall_mem_cons.mpr ⟨.word hP, hcurrent⟩) haround
    | unknown kind value => exact absurd hreadable id

end Reading

end Tree

end PlusLisp
