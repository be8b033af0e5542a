import PlusLisp.Program
import PlusLisp.Proofs.Token.Lexing
import PlusLisp.Proofs.Tree.Flatten
import PlusLisp.Tree.Printer

/-!
Printing and reading program text: which trees come back from their own source text.

What a scan yields is `IsScanned`, so that every program read from text is `IsCanonical`. In the
other direction, scanning the source text of a canonical tree yields the tokens the tree is read
from (`scan_formsText`). Spaces around parentheses and between forms keep the lexemes apart.

Main statement: `Program.tree_formsText_iff`.
-/

namespace PlusLisp

open Token (isDelimiter isolateParens Scanner)

/-! ### Canonical trees -/

/-- Holds of the texts that are scanned as one word. -/
def Token.IsLexable (text : String) : Prop :=
  (∃ c ∈ text.toList.head?, c.isDigit = false ∧ c ≠ ';') ∧
    ∀ c ∈ text.toList, isDelimiter c = false

/-- Holds of the tokens that scanning yields. -/
def Token.IsScanned : Token → Prop
  | .opening payload | .closing payload => payload = none
  | .number value => 0 ≤ value ∧ value ≤ Signed64.highest
  | .word text => ∃ characters, text = some characters ∧ IsLexable characters
  | .unknown _ _ => False

/-- Holds of the programs read from text: lists without value over childless numbers that are not
negative and childless words that scan as such. -/
def Tree.IsCanonical (tree : Tree) : Prop :=
  ∃ forms, tree = list forms ∧ ∀ form ∈ forms, form.BuiltFrom Token.IsScanned

theorem Token.IsScanned.isReadable {token : Token} (h : token.IsScanned) : token.IsReadable := by
  cases token with
  | opening | closing | word => trivial
  | number value =>
    obtain ⟨hlow, hhigh⟩ := h
    exact ⟨Int.le_trans (by decide) hlow, hhigh⟩
  | unknown kind value => exact h

/-! ### Scanned tokens -/

namespace Token

theorem Lexeme.token?_isScanned {lexeme : Lexeme} (hformed : lexeme.WellFormed)
    (hfits : lexeme.Fits) : ∀ token ∈ lexeme.token?, token.IsScanned := by
  intro token htoken
  cases lexeme with
  | blank | comment => cases htoken
  | opening | closing => cases htoken; rfl
  | digits run => cases htoken; exact ⟨Int.natCast_nonneg _, hfits⟩
  | word run =>
    cases htoken
    refine ⟨String.ofList run, rfl, ?_⟩
    rw [IsLexable, String.toList_ofList]
    exact hformed

theorem scan_isScanned {text : List Char} {tokens : List Token} (h : scan text = .ok tokens) :
    ∀ token ∈ tokens, token.IsScanned := by
  obtain ⟨lexemes, hsplit, hfits, rfl⟩ := scan_eq_ok_iff.mp h
  intro token hmem
  obtain ⟨lexeme, hlexeme, htoken⟩ := List.mem_filterMap.mp hmem
  exact lexeme.token?_isScanned (hsplit.wellFormed lexeme hlexeme) (hfits lexeme hlexeme)
    token htoken

end Token

theorem Tree.read_isCanonical {tokens : List Token} (h : ∀ token ∈ tokens, token.IsScanned) :
    ∃ tree, (Tree.read tokens).outcome = .ok tree ∧ tree.IsCanonical := by
  obtain ⟨forms, hread, hforms⟩ : ∃ forms, (readInto tokens [] []).outcome = .ok (list forms) ∧
      ∀ form ∈ forms, form.BuiltFrom Token.IsScanned :=
    readInto_builtFrom (fun token hmem => (h token hmem).isReadable) h (by simp) (by simp)
  exact ⟨list forms, hread, forms, rfl, hforms⟩

theorem Program.isCanonical_of_tree {text : String} {tree : Tree}
    (h : Program.tree text = .ok tree) : tree.IsCanonical := by
  unfold Program.tree at h
  rw [Token.Scan.ofProgram, Token.Scan.ofText_outcome] at h
  cases hscan : Token.scan (isolateParens text.toList) with
  | error fault => rw [hscan] at h; cases h
  | ok tokens =>
    rw [hscan] at h
    obtain ⟨tree', hread, hcanonical⟩ := Tree.read_isCanonical (Token.scan_isScanned hscan)
    have hsame : (.ok tree' : Except Fault Tree) = .ok tree := hread.symm.trans h
    rw [← Except.ok.inj hsame]
    exact hcanonical

/-! ### Scanning source text -/

namespace Token

theorem isolateParens_append (text rest : List Char) :
    isolateParens (text ++ rest) = isolateParens text ++ isolateParens rest :=
  List.flatMap_append

theorem isolateParens_of_isDelimiter_eq_false {text : List Char}
    (h : ∀ c ∈ text, isDelimiter c = false) : isolateParens text = text := by
  induction text with
  | nil => rfl
  | cons c text ih =>
    rw [List.forall_mem_cons] at h
    obtain ⟨hc, htext⟩ := h
    obtain ⟨-, hopening, hclosing⟩ := isDelimiter_eq_false_iff.mp hc
    have hplain : ¬(c = '(' ∨ c = ')') := by simp [hopening, hclosing]
    calc isolateParens (c :: text)
        = (if c = '(' ∨ c = ')' then [' ', c, ' '] else [c]) ++ isolateParens text :=
          List.flatMap_cons
      _ = c :: text := by rw [if_neg hplain, ih htext]; rfl

end Token

section Printing

variable {rest : List Char} {tokens : List Token}

/-- The numeral of a number that is not negative is scanned as the number. -/
theorem run_numeral {value : Int} (hlow : 0 ≤ value) (hhigh : value ≤ Signed64.highest)
    (hrest : ∀ c ∈ rest.head?, isDelimiter c = true) :
    (Scanner.between tokens).run (isolateParens (toString value).toList ++ rest) =
      (Scanner.between (.number value :: tokens)).run rest := by
  obtain ⟨n, rfl⟩ := Int.eq_ofNat_of_zero_le hlow
  have hdigits : ∀ c ∈ Nat.toDigits 10 n, c.isDigit = true :=
    fun c hc => Nat.isDigit_of_mem_toDigits (by decide) (by decide) hc
  have hvalue : Token.valueOf (Nat.toDigits 10 n) = n := Nat.ofDigitChars_ten_toDigits
  have hformed : (Token.Lexeme.digits (Nat.toDigits 10 n)).WellFormed :=
    ⟨Nat.toDigits_ne_nil, hdigits⟩
  have hfits : (Token.Lexeme.digits (Nat.toDigits 10 n)).Fits := by
    rw [Token.Lexeme.Fits, hvalue]
    exact hhigh
  have hends : (Token.Lexeme.digits (Nat.toDigits 10 n)).EndsBefore rest := by
    intro c hc
    by_contra hdigit
    have hinside : isDelimiter c = false := Token.isDelimiter_of_isDigit (by simpa using hdigit)
    rw [hrest c hc] at hinside
    cases hinside
  have htext : (toString (n : Int)).toList = Nat.toDigits 10 n := Nat.toList_repr
  have hrun : (Scanner.between tokens).run (Nat.toDigits 10 n ++ rest) =
      (Scanner.between (.number (Token.valueOf (Nat.toDigits 10 n)) :: tokens)).run rest :=
    Token.run_lexeme hformed hends hfits
  rw [hvalue] at hrun
  rw [htext, Token.isolateParens_of_isDelimiter_eq_false
    (fun c hc => Token.isDelimiter_of_isDigit (hdigits c hc))]
  exact hrun

theorem run_lexable {text : String} (hlexable : Token.IsLexable text)
    (hrest : ∀ c ∈ rest.head?, isDelimiter c = true) :
    (Scanner.between tokens).run (isolateParens text.toList ++ rest) =
      (Scanner.between (.word (some text) :: tokens)).run rest := by
  rw [Token.isolateParens_of_isDelimiter_eq_false hlexable.2,
    Token.run_word_lexeme hlexable hrest, String.ofList_toList]

/-- Trees with spaces between them are scanned one after the other. -/
theorem run_intercalate {trees : List Tree}
    (htrees : ∀ tree ∈ trees, ∀ (rest : List Char) (tokens : List Token),
      (∀ c ∈ rest.head?, isDelimiter c = true) →
      (Scanner.between tokens).run (isolateParens tree.sourceText.toList ++ rest) =
        (Scanner.between (tree.flatten.reverse ++ tokens)).run rest)
    (hrest : ∀ c ∈ rest.head?, isDelimiter c = true) :
    (Scanner.between tokens).run
        (isolateParens (" ".intercalate (trees.map Tree.sourceText)).toList ++ rest) =
      (Scanner.between ((Tree.flattenEach trees).reverse ++ tokens)).run rest := by
  induction trees generalizing tokens with
  | nil => rfl
  | cons tree trees ih =>
    rw [List.forall_mem_cons] at htrees
    obtain ⟨htree, htrees⟩ := htrees
    cases trees with
    | nil =>
      rw [List.map_singleton, String.intercalate_singleton, htree rest tokens hrest,
        Tree.flattenEach, Tree.flattenEach, List.append_nil]
    | cons next trees =>
      have hspace : ∀ c ∈ (' ' :: (isolateParens
          (" ".intercalate ((next :: trees).map Tree.sourceText)).toList ++ rest)).head?,
          isDelimiter c = true := by
        intro c hc
        cases hc
        rfl
      have htext : isolateParens
          (" ".intercalate ((tree :: next :: trees).map Tree.sourceText)).toList ++ rest =
          isolateParens tree.sourceText.toList ++ ' ' :: (isolateParens
            (" ".intercalate ((next :: trees).map Tree.sourceText)).toList ++ rest) := by
        rw [List.map_cons, List.map_cons, String.intercalate_cons_cons, String.toList_append,
          String.toList_append, Token.isolateParens_append, Token.isolateParens_append,
          List.append_assoc, List.append_assoc]
        rfl
      rw [htext, htree _ tokens hspace, Scanner.run_gap_cons,
        Token.start_of_isBlank (by decide), ih htrees, Tree.flattenEach_cons tree,
        List.reverse_append, List.append_assoc]

theorem run_sourceText {tree : Tree} (h : tree.BuiltFrom Token.IsScanned) (rest : List Char)
    (tokens : List Token) (hrest : ∀ c ∈ rest.head?, isDelimiter c = true) :
    (Scanner.between tokens).run (isolateParens tree.sourceText.toList ++ rest) =
      (Scanner.between (tree.flatten.reverse ++ tokens)).run rest := by
  induction h generalizing rest tokens with
  | @number value hvalue =>
    obtain ⟨hlow, hhigh⟩ := hvalue
    rw [Tree.number, Tree.sourceText]
    exact run_numeral hlow hhigh hrest
  | word htext =>
    obtain ⟨text, rfl, hlexable⟩ := htext
    rw [Tree.word, Tree.sourceText]
    exact run_lexable hlexable hrest
  | @list children _ ih =>
    have hclosing : ∀ c ∈ (' ' :: ')' :: ' ' :: rest).head?, isDelimiter c = true := by
      intro c hc
      cases hc
      rfl
    have htext : isolateParens (Tree.list children).sourceText.toList ++ rest =
        ' ' :: '(' :: ' ' :: (isolateParens
          (" ".intercalate (children.map Tree.sourceText)).toList ++
            ' ' :: ')' :: ' ' :: rest) := by
      rw [Tree.list, Tree.sourceText, String.toList_append, String.toList_append,
        Token.isolateParens_append, Token.isolateParens_append, List.append_assoc,
        List.append_assoc]
      rfl
    have hblank : Text.isBlank ' ' = true := by decide
    calc (Scanner.between tokens).run
          (isolateParens (Tree.list children).sourceText.toList ++ rest)
        = (Scanner.between (.opening none :: tokens)).run (isolateParens
            (" ".intercalate (children.map Tree.sourceText)).toList ++
              ' ' :: ')' :: ' ' :: rest) := by
          rw [htext]
          rfl
      _ = (Scanner.between ((Tree.flattenEach children).reverse ++ .opening none :: tokens)).run
            (' ' :: ')' :: ' ' :: rest) := run_intercalate ih hclosing
      _ = (Scanner.between (.closing none ::
            ((Tree.flattenEach children).reverse ++ .opening none :: tokens))).run rest := rfl
      _ = (Scanner.between ((Tree.list children).flatten.reverse ++ tokens)).run rest := by
          simp [Tree.flatten_list]

end Printing

/-- Scanning the source text of a canonical program yields the tokens that it is read from. -/
theorem scan_formsText {forms : List Tree}
    (h : ∀ form ∈ forms, form.BuiltFrom Token.IsScanned) :
    (Token.Scan.ofProgram (Tree.list forms).formsText).outcome = .ok (Tree.flattenEach forms) := by
  have hrun : (Scanner.between []).run
        (isolateParens (" ".intercalate (forms.map Tree.sourceText)).toList ++ []) =
      (Scanner.between ((Tree.flattenEach forms).reverse ++ [])).run [] :=
    run_intercalate (fun form hform => run_sourceText (h form hform)) (by simp)
  rw [List.append_nil, List.append_nil] at hrun
  rw [Token.Scan.ofProgram, Token.Scan.ofText_outcome, Token.scan_eq_run, Scanner.initial,
    Tree.formsText, Tree.list, Tree.children, hrun, Scanner.run_nil]
  simp [Scanner.complete, Except.map]

theorem Program.tree_formsText_of_isCanonical {tree : Tree} (h : tree.IsCanonical) :
    Program.tree tree.formsText = .ok tree := by
  obtain ⟨forms, rfl, hforms⟩ := h
  have hreadable : ∀ form ∈ forms, form.BuiltFrom Token.IsReadable :=
    fun form hform => (hforms form hform).mono fun _ htoken => htoken.isReadable
  unfold Program.tree
  rw [scan_formsText hforms]
  exact congrArg Reading.outcome (Tree.read_flattenEach hreadable)

/-- The round trip through text is exact: every text that scans is read as a canonical program,
and the source text of a tree is read as the tree itself when that is canonical, and never
otherwise. -/
theorem Program.tree_formsText_iff :
    (∀ text tokens, (Token.Scan.ofProgram text).outcome = .ok tokens →
      ∃ tree, (Tree.read tokens).outcome = .ok tree ∧ tree.IsCanonical) ∧
    ∀ tree : Tree, Program.tree tree.formsText = .ok tree ↔ tree.IsCanonical := by
  constructor
  · intro text tokens hscan
    rw [Token.Scan.ofProgram, Token.Scan.ofText_outcome] at hscan
    exact Tree.read_isCanonical (Token.scan_isScanned hscan)
  · intro tree
    constructor
    · exact Program.isCanonical_of_tree
    · exact Program.tree_formsText_of_isCanonical

end PlusLisp
