import PlusLisp.Proofs.Token.Nesting

/-!
Tokens with matching parentheses, as a grammar. Its words are the tokens that lead from level 0 back
to level 0 (`balanced_iff_nesting`).
-/

namespace PlusLisp.Token

/-- The tokens in which every parenthesis has a partner: none, one that is no parenthesis, balanced
tokens in parentheses, and balanced tokens one after the other. -/
inductive Balanced : List Token → Prop
  | nil : Balanced []
  | inner {token : Token} : token.isOpening = false → token.isClosing = false → Balanced [token]
  | enclosed (payload payload' : Option String) {body : List Token} : Balanced body →
      Balanced (.opening payload :: (body ++ [.closing payload']))
  | append {front rest : List Token} : Balanced front → Balanced rest → Balanced (front ++ rest)

theorem Balanced.nesting {tokens : List Token} (h : Balanced tokens) (level : Nat) :
    Nesting level tokens level := by
  induction h generalizing level with
  | nil => exact .nil
  | inner hopening hclosing => exact .inner hopening hclosing .nil
  | enclosed _ _ _ ih => exact .opening ((ih (level + 1)).append (.closing .nil))
  | append _ _ ihfront ihrest => exact (ihfront level).append (ihrest level)

/-- Tokens that leave some lists open and are balanced up to that: balanced tokens before, between
and after the opening parentheses of these lists. -/
inductive Opened : Nat → List Token → Prop
  | outermost {body : List Token} : Balanced body → Opened 0 body
  | within (payload : Option String) {level : Nat} {front body : List Token} :
      Opened level front → Balanced body → Opened (level + 1) (front ++ .opening payload :: body)

section

variable {level last : Nat} {front body tokens : List Token}

theorem Opened.append (h : Opened level front) (hbody : Balanced body) :
    Opened level (front ++ body) := by
  cases h with
  | outermost h => exact .outermost (h.append hbody)
  | @within payload level before inside hbefore hinside =>
    rw [List.append_assoc, List.cons_append]
    exact .within payload hbefore (hinside.append hbody)

/-- Closing the innermost of the open lists makes it balanced. -/
theorem Opened.close (h : Opened (level + 1) front) (payload : Option String) :
    Opened level (front ++ [.closing payload]) := by
  cases h with
  | @within payload' _ before inside hbefore hinside =>
    rw [List.append_assoc, List.cons_append]
    exact hbefore.append (.enclosed payload' payload hinside)

/-- Tokens that close all lists that have been left open complete balanced tokens. -/
theorem Nesting.balanced (h : Nesting level tokens last) (hlast : last = 0)
    (hfront : Opened level front) : Balanced (front ++ tokens) := by
  induction h generalizing front with
  | nil =>
    subst hlast
    cases hfront with
    | outermost hfront => exact hfront.append .nil
  | @opening _ _ payload tokens _ ih =>
    have hopened : Opened _ (front ++ [.opening payload]) := .within payload hfront .nil
    simpa using ih hlast hopened
  | @closing _ _ payload tokens _ ih => simpa using ih hlast (hfront.close payload)
  | inner hopening hclosing _ ih =>
    simpa using ih hlast (hfront.append (.inner hopening hclosing))

/-- The grammar derives the tokens that lead from level 0 back to it. -/
theorem balanced_iff_nesting : Balanced tokens ↔ Nesting 0 tokens 0 :=
  ⟨fun h => h.nesting 0, fun h => h.balanced rfl (.outermost .nil)⟩

end

end PlusLisp.Token
