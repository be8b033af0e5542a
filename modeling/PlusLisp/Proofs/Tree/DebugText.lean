import PlusLisp.Proofs.Text.Line
import PlusLisp.Proofs.Text.Quoting
import PlusLisp.Token
import PlusLisp.Tree.Printer

/-!
The debug texts of trees and of sequences of tokens are unambiguous, as far as they show
everything that there is to a tree or a token (`Tree.IsBare`, `Token.IsBare`). The first three
letters tell what kind of node or token is shown. The forms of numbers and words are delimited, and
so are whole trees, by induction.

Main statement: `debugText_unambiguous`.
-/

namespace PlusLisp

namespace Text

variable {printable : Char → Bool} {rest rest' : List Char}

/-! ### Numbers and words -/

theorem eq_of_natCast_eq {n n' : Nat} (h : toString n = toString n') : n = n' := by
  have hwritten (n : Nat) : (toString n).toList = Nat.toDigits 10 n := Nat.toList_repr
  have hdigits : Nat.toDigits 10 n = Nat.toDigits 10 n' := by rw [← hwritten, ← hwritten, h]
  have hvalue := congrArg (Nat.ofDigitChars 10 · 0) hdigits
  rwa [Nat.ofDigitChars_ten_toDigits, Nat.ofDigitChars_ten_toDigits] at hvalue

/-- An integer is told by how it is written: the sign sets negative ones apart. -/
theorem eq_of_intCast_eq {n n' : Int} (h : toString n = toString n') : n = n' := by
  have hsign (n : Nat) : '-' ∉ (toString n).toList := notMem_natCast rfl n
  have hnegative (n : Nat) : toString (Int.negSucc n) = "-" ++ toString (n + 1) := rfl
  have hmem (n : Nat) : '-' ∈ (toString (Int.negSucc n)).toList := by
    rw [hnegative, String.toList_append]
    exact List.mem_append_left _ (by decide)
  cases n with
  | ofNat n =>
    cases n' with
    | ofNat n' => exact congrArg Int.ofNat (eq_of_natCast_eq h)
    | negSucc n' => exact absurd (congrArg String.toList h ▸ hmem n') (hsign n)
  | negSucc n =>
    cases n' with
    | ofNat n' => exact absurd (congrArg String.toList h ▸ hmem n) (hsign n')
    | negSucc n' =>
      rw [hnegative, hnegative, String.append_right_inj] at h
      exact congrArg Int.negSucc (Nat.succ.inj (eq_of_natCast_eq h))

theorem toList_numberForm_append (n : Int) (rest : List Char) :
    (numberForm n).toList ++ rest =
      "Number(".toList ++ ((toString n).toList ++ ')' :: rest) := by
  rw [numberForm, String.toList_append, String.toList_append, List.append_assoc,
    List.append_assoc]
  rfl

theorem eq_of_numberForm_append {n n' : Int}
    (h : (numberForm n).toList ++ rest = (numberForm n').toList ++ rest') :
    n = n' ∧ rest = rest' := by
  rw [toList_numberForm_append, toList_numberForm_append] at h
  have hmark (n : Int) : ')' ∉ (toString n).toList := notMem_intCast rfl (by decide) n
  obtain ⟨hdigits, hrest⟩ := eq_of_append_mark (hmark n) (hmark n') (List.append_cancel_left h)
  exact ⟨eq_of_intCast_eq (String.toList_inj.mp hdigits), hrest⟩

theorem toList_wordForm_append (printable : Char → Bool) (text : Option String)
    (rest : List Char) :
    (wordForm printable text).toList ++ rest =
      "Word(".toList ++ (((text.map (quote printable)).getD "None").toList ++ ')' :: rest) := by
  rw [wordForm, String.toList_append, String.toList_append, List.append_assoc, List.append_assoc]
  rfl

/-- A word that lacks its text is told from one with a text by the quotation mark. -/
theorem none_append_ne_quote_append (text : String) (rest rest' : List Char) :
    "None".toList ++ rest ≠ (quote printable text).toList ++ rest' := by
  intro h
  rw [toList_quote_append] at h
  obtain ⟨hmark, -⟩ := List.cons_eq_cons.mp h
  obtain hsingle | hdouble := quotationMark_eq text.toList
  · rw [hsingle] at hmark
    contradiction
  · rw [hdouble] at hmark
    contradiction

theorem eq_of_wordForm_append {text text' : Option String}
    (h : (wordForm printable text).toList ++ rest =
      (wordForm printable text').toList ++ rest') : text = text' ∧ rest = rest' := by
  rw [toList_wordForm_append, toList_wordForm_append] at h
  have hbody := List.append_cancel_left h
  cases text with
  | none =>
    cases text' with
    | none => exact ⟨rfl, List.tail_eq_of_cons_eq (List.append_cancel_left hbody)⟩
    | some text' => exact absurd hbody (none_append_ne_quote_append text' _ _)
  | some text =>
    cases text' with
    | none => exact absurd hbody.symm (none_append_ne_quote_append text _ _)
    | some text' =>
      obtain ⟨rfl, hrest⟩ := eq_of_quote_append hbody
      exact ⟨rfl, List.tail_eq_of_cons_eq hrest⟩

/-! ### First letters -/

theorem head?_eq_of_take_eq {text letters : List Char} (h : text.take 3 = letters) :
    text.head? = letters.head? := by
  rw [← h, List.head?_take, if_neg (by decide)]

end Text

open Text

variable {printable : Char → Bool}

/-! ### Trees -/

namespace Tree

/-- Holds of the trees of which the debug text shows everything. -/
inductive IsBare : Tree → Prop
  | null : IsBare null
  | number (value : Int) : IsBare (number value)
  | word (text : Option String) : IsBare (word text)
  | list {children : List Tree} : (∀ child ∈ children, IsBare child) → IsBare (list children)

/-- The letters that a debug text begins with. -/
def letters : Tree → List Char
  | node (.null _) _ => ['N', 'u', 'l']
  | node (.number _) _ => ['N', 'u', 'm']
  | node (.word _) _ => ['W', 'o', 'r']
  | node (.list _) _ | node (.unknown _ _) _ => ['L', 'i', 's']

theorem debugTextWith_null : null.debugTextWith printable = "Null" := by
  rw [null, debugTextWith]

theorem debugTextWith_number (value : Int) :
    (number value).debugTextWith printable = numberForm value := by
  rw [number, debugTextWith]

theorem debugTextWith_word (text : Option String) :
    (word text).debugTextWith printable = wordForm printable text := by
  rw [word, debugTextWith]

theorem toList_debugText_list_append (children : List Tree) (rest : List Char) :
    ((list children).debugTextWith printable).toList ++ rest =
      "List(".toList ++
        ((sequenceForm (children.map (debugTextWith printable))).toList ++ ')' :: rest) := by
  rw [list, debugTextWith, String.toList_append, String.toList_append, List.append_assoc,
    List.append_assoc]
  rfl

theorem take_debugText {tree : Tree} (h : tree.IsBare) (rest : List Char) :
    ((tree.debugTextWith printable).toList ++ rest).take 3 = tree.letters := by
  cases h with
  | null =>
    rw [debugTextWith_null]
    rfl
  | number value =>
    rw [debugTextWith_number, toList_numberForm_append]
    rfl
  | word text =>
    rw [debugTextWith_word, toList_wordForm_append]
    rfl
  | list =>
    rw [toList_debugText_list_append]
    rfl

theorem letters_eq {a b : Tree} {rest rest' : List Char} (ha : a.IsBare) (hb : b.IsBare)
    (h : (a.debugTextWith printable).toList ++ rest =
      (b.debugTextWith printable).toList ++ rest') : a.letters = b.letters := by
  rw [← take_debugText ha rest, h, take_debugText hb rest']

/-- No tree begins as a sequence ends. -/
theorem head?_debugText_ne {tree : Tree} (h : tree.IsBare) (rest : List Char) :
    ((tree.debugTextWith printable).toList ++ rest).head? ≠ some ']' := by
  rw [head?_eq_of_take_eq (take_debugText h rest)]
  cases h with
  | null | number | word | list => simp [letters, null, number, word, list]

/-- **Trees are delimited.** -/
theorem isDelimited_debugText {tree : Tree} (h : tree.IsBare) :
    IsDelimited IsBare (fun tree => (tree.debugTextWith printable).toList) tree := by
  -- In each case the first letters leave one kind for the other tree.
  induction h with
  | null =>
    intro other hother rest rest' htexts
    have hletters := letters_eq .null hother htexts
    cases hother with
    | null => exact ⟨rfl, List.append_cancel_left htexts⟩
    | number | word | list => simp [letters, null, number, word, list] at hletters
  | number value =>
    intro other hother rest rest' htexts
    have hletters := letters_eq (.number value) hother htexts
    cases hother with
    | number value' =>
      simp only [debugTextWith_number] at htexts
      obtain ⟨rfl, hrest⟩ := eq_of_numberForm_append htexts
      exact ⟨rfl, hrest⟩
    | null | word | list => simp [letters, null, number, word, list] at hletters
  | word text =>
    intro other hother rest rest' htexts
    have hletters := letters_eq (.word text) hother htexts
    cases hother with
    | word text' =>
      simp only [debugTextWith_word] at htexts
      obtain ⟨rfl, hrest⟩ := eq_of_wordForm_append htexts
      exact ⟨rfl, hrest⟩
    | null | number | list => simp [letters, null, number, word, list] at hletters
  | @list children hchildren ih =>
    intro other hother rest rest' htexts
    have hletters := letters_eq (.list hchildren) hother htexts
    cases hother with
    | @list children' hchildren' =>
      simp only [toList_debugText_list_append] at htexts
      obtain ⟨rfl, hrest⟩ := eq_of_sequenceForm_append ih hchildren hchildren'
        (fun _ h => head?_debugText_ne h) (List.append_cancel_left htexts)
      exact ⟨rfl, List.tail_eq_of_cons_eq hrest⟩
    | null | number | word => simp [letters, null, number, word, list] at hletters

end Tree

/-! ### Tokens -/

namespace Token

/-- Holds of the tokens of which the debug text shows everything. -/
def IsBare : Token → Prop
  | opening payload | closing payload => payload = none
  | number _ | word _ => True
  | unknown _ _ => False

/-- The letters that a debug text begins with. -/
def letters : Token → List Char
  | opening _ => ['L', 'P', 'a']
  | closing _ => ['R', 'P', 'a']
  | number _ => ['N', 'u', 'm']
  | word _ | unknown _ _ => ['W', 'o', 'r']

theorem take_debugText (token : Token) (rest : List Char) :
    ((token.debugTextWith printable).toList ++ rest).take 3 = token.letters := by
  cases token with
  | opening | closing =>
    rw [debugTextWith]
    rfl
  | number value =>
    rw [debugTextWith, toList_numberForm_append]
    rfl
  | word text | unknown kind text =>
    rw [debugTextWith, toList_wordForm_append]
    rfl

/-- No token begins as a sequence ends. -/
theorem head?_debugText_ne (token : Token) (rest : List Char) :
    ((token.debugTextWith printable).toList ++ rest).head? ≠ some ']' := by
  rw [head?_eq_of_take_eq (take_debugText token rest)]
  cases token with
  | opening | closing | number | word | unknown => simp [letters]

theorem isDelimited_debugText {token : Token} (h : token.IsBare) :
    IsDelimited IsBare (fun token => (token.debugTextWith printable).toList) token := by
  intro other hother rest rest' htexts
  have hletters : token.letters = other.letters := by
    rw [← take_debugText token rest, htexts, take_debugText]
  cases token with
  | opening payload =>
    cases other with
    | opening payload' =>
      rw [IsBare] at h hother
      rw [h, hother]
      exact ⟨rfl, List.append_cancel_left htexts⟩
    | closing | number | word | unknown => simp [letters] at hletters
  | closing payload =>
    cases other with
    | closing payload' =>
      rw [IsBare] at h hother
      rw [h, hother]
      exact ⟨rfl, List.append_cancel_left htexts⟩
    | opening | number | word | unknown => simp [letters] at hletters
  | number value =>
    cases other with
    | number value' =>
      obtain ⟨rfl, hrest⟩ := eq_of_numberForm_append htexts
      exact ⟨rfl, hrest⟩
    | opening | closing | word | unknown => simp [letters] at hletters
  | word text =>
    cases other with
    | word text' =>
      obtain ⟨rfl, hrest⟩ := eq_of_wordForm_append htexts
      exact ⟨rfl, hrest⟩
    | unknown kind text' => exact absurd hother id
    | opening | closing | number => simp [letters] at hletters
  | unknown kind text => exact absurd h id

end Token

/-- **The debug text is unambiguous**, whatever characters count as printable. -/
theorem debugText_unambiguous (printable : Char → Bool) :
    (∀ a b : Tree, a.IsBare → b.IsBare →
      (a.debugTextWith printable = b.debugTextWith printable ↔ a.same b = true)) ∧
    ∀ tokens tokens' : List Token, (∀ token ∈ tokens, token.IsBare) →
      (∀ token ∈ tokens', token.IsBare) →
      Token.debugTextsWith printable tokens = Token.debugTextsWith printable tokens' →
      tokens = tokens' := by
  constructor
  · intro a b ha hb
    rw [Tree.same_iff]
    constructor
    · intro h
      have hlist := congrArg (fun text => text.toList ++ []) h
      exact (Tree.isDelimited_debugText ha b hb [] [] hlist).1
    · rintro rfl
      rfl
  · intro tokens tokens' htokens htokens' h
    have hlist := congrArg (fun text => text.toList ++ []) h
    exact (eq_of_sequenceForm_append
      (fun token hmem => Token.isDelimited_debugText (htokens token hmem)) htokens htokens'
      (fun token _ => token.head?_debugText_ne) hlist).1

/-- One word that imitates the end of a word and the beginning of the next one is not shown as two
words are, neither in a tree nor among tokens. -/
theorem debugText_unambiguous_imitation :
    (Tree.list [.word (some "x'), Word('y")]).debugTextWith Text.isPrintable ≠
      (Tree.list [.word (some "x"), .word (some "y")]).debugTextWith Text.isPrintable ∧
    Token.debugTextsWith Text.isPrintable [.opening none, .word (some "x'), Word('y")] ≠
      Token.debugTextsWith Text.isPrintable
        [.opening none, .word (some "x"), .word (some "y")] := by
  constructor
  · intro h
    have hone : (Tree.list [.word (some "x'), Word('y")]).IsBare := by
      refine .list ?_
      rw [List.forall_mem_singleton]
      exact .word _
    have htwo : (Tree.list [.word (some "x"), .word (some "y")]).IsBare := by
      refine .list ?_
      rw [List.forall_mem_cons, List.forall_mem_singleton]
      exact ⟨.word _, .word _⟩
    have hsame := ((debugText_unambiguous Text.isPrintable).1 _ _ hone htwo).mp h
    exact absurd hsame (by decide)
  · intro h
    have htokens := (debugText_unambiguous Text.isPrintable).2 _ _ (by simp [Token.IsBare])
      (by simp [Token.IsBare]) h
    exact absurd htokens (by decide)

end PlusLisp
