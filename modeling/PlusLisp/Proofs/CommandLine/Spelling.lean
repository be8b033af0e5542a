import Mathlib.Data.List.Infix
import Mathlib.Data.List.TakeWhile
import PlusLisp.Proofs.CommandLine.Accepted

/-!
How words spell options and their values. An option may be spelled by any beginning of its name that
is not the beginning of another (`Abbreviates`), with its value attached after an equals sign or in
the word that follows. Either way the word looks like the option (`look_of_abbreviates`,
`look_attached`), and the value that follows it like an argument (`look_of_isPlain`).
-/

namespace PlusLisp.CommandLine

/-! ### Names of options -/

/-- A name stands for an option: it is the beginning of a spelling with two dashes, and of no other
spelling of any option. -/
def Abbreviates (name : String) (switch : Switch) : Prop :=
  ∃ spelling, (spelling, switch) ∈ Switch.table ∧ isShort spelling.toList = false ∧
    name.toList <+: spelling.toList ∧
    ∀ entry ∈ Switch.table, name.toList <+: entry.1.toList → entry = (spelling, switch)

theorem Switch.nodup_table : table.Nodup := by decide

theorem Switch.equals_notMem_spelling : ∀ entry ∈ table, '=' ∉ entry.1.toList := by decide

theorem Switch.ofSpelling?_eq_none {spelling : String} (h : '=' ∈ spelling.toList) :
    ofSpelling? spelling = none := by
  cases hswitch : ofSpelling? spelling with
  | none => rfl
  | some switch =>
    exact absurd h (equals_notMem_spelling _ (mem_table_of_ofSpelling? hswitch))

section

variable {name value : String} {switch : Switch}

theorem Abbreviates.equals_notMem (h : Abbreviates name switch) : '=' ∉ name.toList := by
  obtain ⟨spelling, htable, -, hstarts, -⟩ := h
  intro hmem
  exact Switch.equals_notMem_spelling _ htable (hstarts.subset hmem)

/-- What one dash starts, or nothing at all, stands for no option. -/
theorem Abbreviates.exists_dashes (h : Abbreviates name switch) :
    ∃ letters, name.toList = '-' :: '-' :: letters := by
  have hdashes : ∀ entry ∈ Switch.table, isShort entry.1.toList = false →
      entry.1.toList.take 2 = ['-', '-'] := by
    decide
  have hshared : ∀ start ∈ [[], ['-']], start <+: "-h".toList ∧ start <+: "--help".toList := by
    decide
  obtain ⟨spelling, htable, hlong, hstarts, hunique⟩ := h
  have hname : name.toList.take 2 <+: ['-', '-'] := by
    rw [← hdashes _ htable hlong]
    exact hstarts.take 2
  have hlength : name.toList ∉ [[], ['-']] := by
    intro hmem
    have hhelp := hunique ("-h", .help) (by decide) (hshared _ hmem).1
    have hhelp' := hunique ("--help", .help) (by decide) (hshared _ hmem).2
    exact absurd (congrArg Prod.fst (hhelp.trans hhelp'.symm)) (by decide)
  rcases hchars : name.toList with _ | ⟨first, _ | ⟨second, letters⟩⟩
  · exact absurd (by rw [hchars]; decide) hlength
  · rw [hchars] at hname
    obtain ⟨rfl, -⟩ := List.cons_prefix_cons.mp hname
    exact absurd (by rw [hchars]; decide) hlength
  · rw [hchars] at hname
    obtain ⟨rfl, hsecond⟩ := List.cons_prefix_cons.mp hname
    obtain ⟨rfl, -⟩ := List.cons_prefix_cons.mp hsecond
    exact ⟨letters, rfl⟩

/-- A name is a spelling only of the option that it stands for. -/
theorem Abbreviates.ofSpelling?_cases (h : Abbreviates name switch) :
    Switch.ofSpelling? name = none ∨
      Switch.ofSpelling? name = some switch ∧ isShort name.toList = false := by
  obtain ⟨spelling, -, hlong, -, hunique⟩ := h
  cases hname : Switch.ofSpelling? name with
  | none => exact .inl rfl
  | some switch' =>
    obtain ⟨rfl, rfl⟩ :=
      Prod.mk.inj (hunique _ (Switch.mem_table_of_ofSpelling? hname) (List.prefix_refl _))
    exact .inr ⟨rfl, hlong⟩

/-- A word that starts with a name can only be the option that the name stands for. -/
theorem Abbreviates.candidates_eq (h : Abbreviates name switch) {word : List Char}
    {value : Option (List Char)} (hstarts : name.toList <+: word)
    (hsplit : splitEquals word = (name.toList, value)) :
    ∃ spelling, isShort spelling.toList = false ∧
      candidates word = [(spelling, switch, value)] := by
  obtain ⟨letters, hname⟩ := h.exists_dashes
  obtain ⟨spelling, htable, hlong, hbegins, hunique⟩ := h
  obtain ⟨before, after, hsplits⟩ := List.append_of_mem htable
  have hnodup : (before ++ (spelling, switch) :: after).Nodup := hsplits ▸ Switch.nodup_table
  obtain ⟨rest, rfl⟩ := hstarts
  have hother : ∀ entry ∈ before ++ after,
      (if name.toList.isPrefixOf entry.1.toList then some (entry.1, entry.2, value) else none) =
        none := by
    intro entry hentry
    refine if_neg fun hstart => ?_
    have hmem : entry ∈ Switch.table := by
      rw [hsplits]
      exact (List.perm_middle.mem_iff).mpr (List.mem_cons_of_mem _ hentry)
    obtain rfl := hunique entry hmem (List.isPrefixOf_iff_prefix.mp hstart)
    exact (List.nodup_cons.mp (List.perm_middle.nodup_iff.mp hnodup)).1 hentry
  rw [List.forall_mem_append] at hother
  refine ⟨spelling, hlong, ?_⟩
  rw [hname, List.cons_append, List.cons_append] at hsplit ⊢
  simp only [candidates, hsplit, hsplits]
  rw [← hname, List.filterMap_append, List.filterMap_cons,
    List.filterMap_eq_nil_iff.mpr hother.1, List.filterMap_eq_nil_iff.mpr hother.2,
    if_pos (List.isPrefixOf_iff_prefix.mpr hbegins)]
  rfl

/-! ### Looks -/

theorem splitEquals_of_notMem {word : List Char} (h : '=' ∉ word) :
    splitEquals word = (word, none) := by
  have hdrop : word.dropWhile (· ≠ '=') = [] :=
    List.dropWhile_eq_nil_iff.mpr fun c hc => decide_eq_true (ne_of_mem_of_not_mem hc h)
  rw [splitEquals, hdrop]

theorem splitEquals_append {start : List Char} (h : '=' ∉ start) (value : List Char) :
    splitEquals (start ++ '=' :: value) = (start, some value) := by
  have hstart : ∀ c ∈ start, decide (c ≠ '=') = true :=
    fun c hc => decide_eq_true (ne_of_mem_of_not_mem hc h)
  rw [splitEquals, List.dropWhile_append_of_pos hstart, List.takeWhile_append_of_pos hstart]
  simp

/-- A name looks like the option that it stands for. -/
theorem look_of_abbreviates (h : Abbreviates name switch) :
    look name = .ok (.option switch false none) := by
  have hsplit := splitEquals_of_notMem h.equals_notMem
  obtain ⟨letters, hname⟩ := h.exists_dashes
  have hdash : ¬ name.toList.head? ≠ some '-' := by simp [hname]
  obtain ⟨spelling, hlong, hcandidates⟩ := h.candidates_eq (List.prefix_refl _) hsplit
  simp only [look, hsplit, if_neg hdash, hcandidates, hlong]
  obtain hnone | ⟨hsome, hshort⟩ := h.ofSpelling?_cases
  · rw [hnone]
    rfl
  · rw [hsome]
    exact congrArg (fun short => Except.ok (Look.option switch short none)) hshort

/-- A name with a value attached looks like the option that the name stands for. -/
theorem look_attached (h : Abbreviates name switch) (value : String) :
    look (name ++ "=" ++ value) = .ok (.option switch false (some value)) := by
  have htext : (name ++ "=" ++ value).toList = name.toList ++ '=' :: value.toList := by
    simp
  have hsplit := splitEquals_append h.equals_notMem value.toList
  obtain ⟨letters, hname⟩ := h.exists_dashes
  have hdash : ¬ (name.toList ++ '=' :: value.toList).head? ≠ some '-' := by simp [hname]
  have hword : Switch.ofSpelling? (name ++ "=" ++ value) = none :=
    Switch.ofSpelling?_eq_none (by rw [htext]; simp)
  obtain ⟨spelling, hlong, hcandidates⟩ := h.candidates_eq (List.prefix_append _ _) hsplit
  simp only [look, htext, hsplit, if_neg hdash, hword, String.ofList_toList, hcandidates, hlong]
  obtain hnone | ⟨hsome, hshort⟩ := h.ofSpelling?_cases
  · rw [hnone]
    simp
  · rw [hsome]
    simp [hshort]

/-! ### Values -/

/-- Holds of the texts that do not look like options: those that start with no dash, or with one
that only digits follow. -/
def IsPlain (text : String) : Prop :=
  text.toList.head? ≠ some '-' ∨
    ∃ digits, text.toList = '-' :: digits ∧ ∀ c ∈ digits, c.isDigit = true

theorem look_of_head?_ne {word : String} (h : word.toList.head? ≠ some '-') :
    look word = .ok .argument := by
  simp only [look, if_pos h]

theorem isSome_decimalValue?_of_isDigit {c : Char} (h : c.isDigit = true) :
    (Text.decimalValue? c).isSome = true := by
  simp only [Char.isDigit, Bool.and_eq_true, decide_eq_true_eq, ge_iff_le, UInt32.le_iff_toNat_le]
    at h
  have hzero : 0x30 ≤ c.toNat ∧ c.toNat < 0x30 + 10 := ⟨h.1, Nat.lt_succ_of_le h.2⟩
  rw [Text.decimalValue?, Option.isSome_map, List.find?_isSome]
  exact ⟨0x30, by decide, by simpa using hzero⟩

section

variable {digits : List Char}

/-- Digits after a dash make a negative number. -/
theorem isNegativeNumber_of_isDigit (hne : digits ≠ [])
    (hdigits : ∀ c ∈ digits, c.isDigit = true) : isNegativeNumber ('-' :: digits) = true := by
  have hnumeral : isDigits digits = true := by
    rw [isDigits, Bool.and_eq_true, List.all_eq_true]
    exact ⟨by simpa using hne, fun c hc => isSome_decimalValue?_of_isDigit (hdigits c hc)⟩
  have hlast : ¬ digits.getLast? = some '\n' := fun hlast =>
    absurd (hdigits _ (List.mem_of_getLast? hlast)) (by decide)
  have hpoint : digits.dropWhile (· ≠ '.') = [] := by
    refine List.dropWhile_eq_nil_iff.mpr fun c hc => decide_eq_true ?_
    rintro rfl
    exact absurd (hdigits _ hc) (by decide)
  simp only [isNegativeNumber, if_neg hlast, hpoint, hnumeral]

/-- No spelling has nothing but digits after its first dash. -/
theorem Switch.ofSpelling?_of_isDigit {word : String} (hword : word.toList = '-' :: digits)
    (hdigits : ∀ c ∈ digits, c.isDigit = true) : ofSpelling? word = none := by
  have hletter : ∀ entry ∈ table, entry.1.toList.tail.all Char.isDigit = false := by decide
  cases hswitch : ofSpelling? word with
  | none => rfl
  | some switch =>
    have hfalse := hletter _ (mem_table_of_ofSpelling? hswitch)
    rw [hword, List.tail_cons, List.all_eq_true.mpr hdigits] at hfalse
    cases hfalse

theorem candidates_of_isDigit (hdigits : ∀ c ∈ digits, c.isDigit = true) :
    candidates ('-' :: digits) = [] := by
  have hletters : ∀ entry ∈ Switch.table, entry.1.toList.any Char.isDigit = false := by decide
  cases digits with
  | nil => rfl
  | cons digit digits =>
    have hdigit : digit.isDigit = true := hdigits digit List.mem_cons_self
    rw [candidates]
    · refine List.filterMap_eq_nil_iff.mpr fun entry hentry => if_neg fun hspelling => ?_
      have hfalse := List.any_eq_false.mp (hletters entry hentry) digit (by simp [hspelling])
      exact hfalse hdigit
    · rintro letters ⟨⟩
      cases hdigit

end

/-- What does not look like an option looks like an argument. -/
theorem look_of_isPlain (h : IsPlain value) : look value = .ok .argument := by
  obtain hfirst | ⟨digits, htext, hdigits⟩ := h
  · exact look_of_head?_ne hfirst
  · have hequals : '=' ∉ '-' :: digits := by
      refine List.not_mem_cons_of_ne_of_not_mem (by decide) fun hmem => ?_
      exact absurd (hdigits _ hmem) (by decide)
    have hargument : '-' :: digits = ['-'] ∨ isNegativeNumber ('-' :: digits) = true ∨
        ' ' ∈ '-' :: digits := by
      by_cases hne : digits = []
      · exact .inl (congrArg _ hne)
      · exact .inr (.inl (isNegativeNumber_of_isDigit hne hdigits))
    simp only [look, htext, splitEquals_of_notMem hequals,
      Switch.ofSpelling?_of_isDigit htext hdigits, candidates_of_isDigit hdigits, if_pos hargument]
    rfl

end

end PlusLisp.CommandLine
