import PlusLisp.Proofs.Program.RoundTrip

/-!
Runs of digits: the check of their range is exact, however long they are and however many zeros
they begin with.

A run whose value is in range is a number of that value, and any other stops the scan
(`Token.refused_iff`). The numbers that a scan yields are therefore in range, so that a reading,
which checks the range of each number again, accepts them all.

Main statement: `Token.Scan.literals_exact`.
-/

namespace PlusLisp.Token

variable {text run : List Char} {before after : List Lexeme} {tokens : List Token} {fault : Fault}

/-- A fault shows a run of digits, as it stands, as one that is out of range. -/
def Refuses (fault : Fault) (run : List Char) : Prop :=
  fault.family = .literal ∧
    fault.message = "Integer literal out of range: " ++ String.ofList run

theorem refuses_literalOutOfRange (run : List Char) :
    Refuses (.literalOutOfRange (String.ofList run)) run := ⟨rfl, rfl⟩

/-- A fault shows no other run than its own. -/
theorem Refuses.eq {digits : List Char}
    (h : Refuses (.literalOutOfRange (String.ofList digits)) run) : digits = run := by
  have hmessage : "Integer literal out of range: " ++ String.ofList digits =
      "Integer literal out of range: " ++ String.ofList run := h.2
  have hlists := congrArg String.toList hmessage
  rw [String.toList_append, String.toList_append] at hlists
  have hruns := List.append_cancel_left hlists
  rwa [String.toList_ofList, String.toList_ofList] at hruns

/-- No run of digits in a text is refused whose value is in range. -/
theorem highest_lt_of_refuses (hsplit : Split text (before ++ .digits run :: after))
    (hscan : scan text = .error fault) (hrefuses : Refuses fault run) :
    Signed64.highest < valueOf run := by
  obtain hfits | ⟨front, digits, back, hlexemes, hfront, hexcess⟩ :=
    fits_or_excess (before ++ .digits run :: after)
  · rw [scan_split hsplit hfits] at hscan
    cases hscan
  · rw [hlexemes] at hsplit
    rw [scan_split_excess hsplit hfront hexcess] at hscan
    cases hscan
    obtain rfl := hrefuses.eq
    exact Int.not_le.mp hexcess

/-- The first run of digits in a text that is out of range is refused, and no other is. -/
theorem refused_iff (hsplit : Split text (before ++ .digits run :: after))
    (hbefore : ∀ earlier, Lexeme.digits earlier ∈ before → valueOf earlier ≤ Signed64.highest) :
    (∃ fault, scan text = .error fault ∧ Refuses fault run) ↔ Signed64.highest < valueOf run := by
  constructor
  · rintro ⟨fault, hscan, hrefuses⟩
    exact highest_lt_of_refuses hsplit hscan hrefuses
  · intro hexcess
    exact ⟨_, scan_split_excess hsplit (forall_fits_iff.mpr hbefore) (Int.not_le.mpr hexcess),
      refuses_literalOutOfRange run⟩

/-- In a text that is scanned, a run of digits is the number of its value, between the tokens of
what comes before it and those of what comes after it. -/
theorem tokens_eq_of_scan (hsplit : Split text (before ++ .digits run :: after))
    (hscan : scan text = .ok tokens) :
    tokens = before.filterMap Lexeme.token? ++
      .number (valueOf run) :: after.filterMap Lexeme.token? := by
  obtain ⟨lexemes, hlexemes, -, rfl⟩ := scan_eq_ok_iff.mp hscan
  rw [hlexemes.unique hsplit, List.filterMap_append]
  rfl

/-- What it means for the check of a run of digits to be exact: it goes by the value of the run in
decimal, also where it does not look at more than the length, and so does the scan of any text in
which the run stands. -/
structure IsExact (run : List Char) : Prop where
  value_eq : valueOf run = Nat.ofDigits 10 (run.reverse.map fun c => c.toNat - '0'.toNat)
  long : longestLiteral < (run.dropWhile (· = '0')).length → Signed64.highest < valueOf run
  fails_iff : (∃ fault, literal run = .error fault) ↔ Signed64.highest < valueOf run
  token_eq : ∀ token, literal run = .ok token → token = .number (valueOf run)
  refused_iff : ∀ text before after, Split text (before ++ .digits run :: after) →
    (∀ earlier, Lexeme.digits earlier ∈ before → valueOf earlier ≤ Signed64.highest) →
    ((∃ fault, (Scan.ofText text).outcome = .error fault ∧ Refuses fault run) ↔
      Signed64.highest < valueOf run)
  scanned : ∀ text before after tokens, Split text (before ++ .digits run :: after) →
    (Scan.ofText text).outcome = .ok tokens →
      tokens = before.filterMap Lexeme.token? ++
        .number (valueOf run) :: after.filterMap Lexeme.token?

theorem isExact (hdigits : ∀ c ∈ run, c.isDigit = true) : IsExact run := by
  constructor
  case value_eq => exact valueOf_eq_ofDigits run
  case long => exact highest_lt_of_longestLiteral_lt hdigits
  case fails_iff =>
    rw [literal_eq hdigits]
    constructor
    · rintro ⟨fault, hfault⟩
      by_contra hrange
      rw [if_neg hrange] at hfault
      cases hfault
    · intro hrange
      exact ⟨_, if_pos hrange⟩
  case token_eq =>
    intro token htoken
    rw [literal_eq hdigits] at htoken
    split at htoken
    · cases htoken
    · exact (Except.ok.inj htoken).symm
  case refused_iff =>
    intro text before after hsplit hbefore
    rw [Scan.ofText_outcome]
    exact Token.refused_iff hsplit hbefore
  case scanned =>
    intro text before after tokens hsplit hscan
    rw [Scan.ofText_outcome] at hscan
    exact tokens_eq_of_scan hsplit hscan

/-- **The check of the range of literals is exact.** A run of digits of any length is refused when
its value in decimal is greater than the greatest number, and is the number of that value
otherwise. All numbers that a scan yields are in range, and readings of its tokens never fail. -/
theorem Scan.literals_exact :
    (∀ run : List Char, (∀ c ∈ run, c.isDigit = true) → IsExact run) ∧
    ∀ (text : List Char) (tokens : List Token), (ofText text).outcome = .ok tokens →
      (∀ n, .number n ∈ tokens → 0 ≤ n ∧ n ≤ Signed64.highest) ∧
      ∀ part : List Token, (∀ token ∈ part, token ∈ tokens) →
        ∃ tree, (Tree.read part).outcome = .ok tree := by
  constructor
  · intro run hdigits
    exact isExact hdigits
  · intro text tokens hscan
    rw [ofText_outcome] at hscan
    have hscanned := scan_isScanned hscan
    constructor
    · intro n hmem
      exact hscanned _ hmem
    · intro part hpart
      obtain ⟨tree, hread, -⟩ :=
        Tree.read_isCanonical fun token hmem => hscanned token (hpart token hmem)
      exact ⟨tree, hread⟩

-- Zeros in front do not count, and a run ends where the digits do.
example :
    scan "00009223372036854775807x".toList =
        .ok [.number 9223372036854775807, .word (some "x")] ∧
      scan "7 09223372036854775808".toList = .error (.literalOutOfRange "09223372036854775808") :=
  ⟨rfl, rfl⟩

end PlusLisp.Token
