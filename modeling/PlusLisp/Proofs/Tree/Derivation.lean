import PlusLisp.Proofs.Token.Nesting
import PlusLisp.Proofs.Tree.Descent

/-!
The grammar of programs: which trees tokens make, with one rule for each way in which tokens can go
on (`Derives`). A list that the tokens leave open has a rule of its own, and derivations count such
lists.

Main statement: a program is derived from the tokens that were taken to read it, but for a closing
parenthesis that stopped the reading (`exists_derivation`).
-/

namespace PlusLisp.Tree

open Token (Nesting)

/-! ### Rules -/

/-- A token becomes a tree by itself. -/
inductive Leaf : Token → Tree → Prop
  | number {value : Int} : Leaf (.number value) (number value)
  | word {text : Option String} : Leaf (.word text) (word text)

/-- Tokens make trees, one after the other, and leave some lists open. -/
inductive Derives : Nat → List Token → List Tree → Prop
  | nil : Derives 0 [] []
  | leaf {opened : Nat} {token : Token} {tree : Tree} {tokens : List Token} {trees : List Tree} :
      Leaf token tree → Derives opened tokens trees →
        Derives opened (token :: tokens) (tree :: trees)
  | closed (payload payload' : Option String) {opened : Nat} {body tokens : List Token}
      {children trees : List Tree} : Derives 0 body children → Derives opened tokens trees →
        Derives opened (.opening payload :: (body ++ .closing payload' :: tokens))
          (list children :: trees)
  | unclosed (payload : Option String) {opened : Nat} {body : List Token} {children : List Tree} :
      Derives opened body children → Derives (opened + 1) (.opening payload :: body) [list children]

section

variable {opened : Nat} {token : Token} {tokens body taken rest : List Token} {tree : Tree}
  {trees children : List Tree}

theorem Leaf.isOpening_eq (h : Leaf token tree) : token.isOpening = false := by
  cases h <;> rfl

theorem Leaf.isClosing_eq (h : Leaf token tree) : token.isClosing = false := by
  cases h <;> rfl

/-- Derivations are the same on every level. -/
theorem Derives.nesting (h : Derives opened tokens trees) (level : Nat) :
    Nesting level tokens (level + opened) := by
  induction h generalizing level with
  | nil => exact .nil
  | leaf hleaf _ ih => exact .inner hleaf.isOpening_eq hleaf.isClosing_eq (ih level)
  | closed _ _ _ _ ihbody ih => exact .opening ((ihbody (level + 1)).append (.closing (ih level)))
  | @unclosed _ opened _ _ _ ih =>
    have hlevel : level + 1 + opened = level + (opened + 1) := by omega
    exact .opening (hlevel ▸ ih (level + 1))

/-! ### What is read is derived -/

/-- The trees of a level are derived from its tokens, which end with all tokens or before a closing
parenthesis. What comes after that is the rest. -/
inductive Level.DerivedFrom (trees : List Tree) : List Token → List Token → Prop
  | whole {opened : Nat} {tokens : List Token} : Derives opened tokens trees →
      DerivedFrom trees tokens []
  | stopped (payload : Option String) {body rest : List Token} : Derives 0 body trees →
      DerivedFrom trees (body ++ .closing payload :: rest) rest

namespace Level.DerivedFrom

theorem leaf (hleaf : Leaf token tree) (h : DerivedFrom trees tokens rest) :
    DerivedFrom (tree :: trees) (token :: tokens) rest := by
  cases h with
  | whole h => exact .whole (.leaf hleaf h)
  | stopped payload h => exact .stopped payload (.leaf hleaf h)

theorem closed (payload payload' : Option String) (hbody : Derives 0 body children)
    (h : DerivedFrom trees tokens rest) :
    DerivedFrom (list children :: trees) (.opening payload :: (body ++ .closing payload' :: tokens))
      rest := by
  cases h with
  | whole h => exact .whole (.closed payload payload' hbody h)
  | @stopped last front _ h =>
    have hderives := Derives.closed payload payload' hbody h
    have hstopped := @DerivedFrom.stopped _ last _ rest hderives
    rwa [List.cons_append, List.append_assoc] at hstopped

end Level.DerivedFrom

theorem exists_of_map_eq_ok {outcome : Except Fault (List Tree)}
    (h : outcome.map (tree :: ·) = .ok trees) :
    ∃ later, outcome = .ok later ∧ trees = tree :: later := by
  cases outcome with
  | error fault => cases h
  | ok later => exact ⟨later, rfl, (Except.ok.inj h).symm⟩

/-- A level that does not fail ends with trees that are derived from its tokens. -/
theorem derivedFrom_of_descend (h : (descend tokens).outcome = .ok trees) :
    Level.DerivedFrom trees tokens (descend tokens).rest := by
  induction tokens using descend.induct generalizing trees with
  | case1 =>
    rw [descend] at h ⊢
    cases h
    exact .whole .nil
  | case2 token tokens ih ihrest =>
    cases token with
    | opening payload =>
      rw [descend] at h ⊢
      rcases hbody : descend tokens with ⟨fault | children, rest, length_le⟩
      · rw [hbody] at h
        cases h
      · rw [hbody] at h
        obtain ⟨trees, htrees, rfl⟩ := exists_of_map_eq_ok h
        have hchildren : Level.DerivedFrom children tokens rest := by
          have hderived := ih (congrArg Level.outcome hbody)
          rwa [hbody] at hderived
        have hrest := ihrest rest length_le htrees
        cases hchildren with
        | whole hchildren =>
          -- No token is left for the level around a list that is not closed.
          rw [descend] at htrees
          cases htrees
          have hempty : (descend []).rest = [] := by rw [descend]
          exact hempty.symm ▸ .whole (.unclosed payload hchildren)
        | stopped payload' hchildren => exact hrest.closed payload payload' hchildren
    | closing payload =>
      rw [descend] at h ⊢
      cases h
      exact .stopped payload .nil
    | number value =>
      rw [descend] at h ⊢
      by_cases hrange : Signed64.InRange value
      · simp only [if_pos hrange] at h ⊢
        obtain ⟨trees, htrees, rfl⟩ := exists_of_map_eq_ok h
        exact (ih htrees).leaf .number
      · simp only [if_neg hrange] at h
        cases h
    | word text =>
      rw [descend] at h ⊢
      obtain ⟨trees, htrees, rfl⟩ := exists_of_map_eq_ok h
      exact (ih htrees).leaf .word
    | unknown kind value =>
      rw [descend] at h
      cases h

/-- **What is read is derived.** A program is derived from the tokens that were taken to read it,
but for a closing parenthesis without partner that the reading may have ended with. -/
theorem exists_derivation (hread : (read tokens).outcome = .ok tree)
    (hrest : (read tokens).rest = rest) (htaken : tokens = taken ++ rest) :
    ∃ forms body opened, tree = list forms ∧ Derives opened body forms ∧
      (taken = body ∨ opened = 0 ∧ ∃ payload, taken = body ++ [.closing payload]) := by
  have hunwind := readInto_eq_unwind tokens [] []
  cases hlevel : (descend tokens).outcome with
  | error fault =>
    rw [hlevel, unwind_error] at hunwind
    cases hread.symm.trans (congrArg Prod.fst hunwind)
  | ok forms =>
    rw [hlevel] at hunwind
    obtain ⟨houtcome, hleft⟩ := Prod.mk.inj hunwind
    have htree : tree = list forms := Except.ok.inj (hread.symm.trans houtcome)
    have hderived := derivedFrom_of_descend hlevel
    rw [show (descend tokens).rest = rest from hleft.symm.trans hrest] at hderived
    cases hderived with
    | @whole opened _ h =>
      rw [List.append_nil] at htaken
      exact ⟨forms, tokens, opened, htree, h, .inl htaken.symm⟩
    | @stopped payload body _ h =>
      have hsplit : taken ++ rest = (body ++ [.closing payload]) ++ rest := by
        rw [← htaken, List.append_assoc, List.singleton_append]
      exact ⟨forms, body, 0, htree, h, .inr ⟨rfl, payload, List.append_cancel_right hsplit⟩⟩

end

end PlusLisp.Tree
