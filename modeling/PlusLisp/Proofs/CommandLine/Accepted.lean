import PlusLisp.CommandLine.Run

/-!
The commands that ask for a run. `Accepted` is their grammar: how each word changes the options, and
that there is one file at most. Any other command is an error of use or asks for help.

Main statement: `parse_eq_run_iff`.
-/

namespace PlusLisp.CommandLine

/-- Holds of the words that may still follow, given whether there has been a file and the options
so far, and of the options in the end. -/
inductive Accepted : List String → Bool → Options → Options → Prop where
  | done {filled : Bool} {options : Options} : Accepted [] filled options options
  | file {word : String} {words : List String} {options last : Options}
      (hword : look word = .ok .argument)
      (hrest : Accepted words true { options with file := some word } last) :
      Accepted (word :: words) false options last
  /-- A terminator may stand right after the file. -/
  | fileEnded {word : String} {options : Options} (hword : look word = .ok .argument) :
      Accepted [word, "--"] false options { options with file := some word }
  /-- Only the file may come after a terminator. -/
  | endedFile {word : String} {options : Options} :
      Accepted ["--", word] false options { options with file := some word }
  | ended {options : Options} : Accepted ["--"] false options options
  | blank {word : String} {words : List String} {filled short : Bool} {switch : Switch}
      {options last : Options} (hword : look word = .ok (.option switch short (some "--")))
      (htakes : switch.takesValue = true)
      (hrest : Accepted words filled (options.leaveBlank switch) last) :
      Accepted (word :: words) filled options last
  | attached {word value : String} {words : List String} {filled short : Bool} {switch : Switch}
      {options next last : Options} (hword : look word = .ok (.option switch short (some value)))
      (htakes : switch.takesValue = true) (hvalue : value ≠ "--")
      (hassign : options.assign switch value = .ok next)
      (hrest : Accepted words filled next last) : Accepted (word :: words) filled options last
  | following {word value : String} {words : List String} {filled short : Bool} {switch : Switch}
      {options next last : Options} (hword : look word = .ok (.option switch short none))
      (htakes : switch.takesValue = true) (hvalue : look value = .ok .argument)
      (hassign : options.assign switch value = .ok next)
      (hrest : Accepted words filled next last) :
      Accepted (word :: value :: words) filled options last
  | flags {word : String} {words : List String} {filled short : Bool} {switch : Switch}
      {attached : Option String} {switches : List Switch} {options next last : Options}
      (hword : look word = .ok (.option switch short attached))
      (htakes : switch.takesValue = false)
      (hflags : CommandLine.flags switch short attached = .ok switches)
      (hon : turnOn options switches = some next) (hrest : Accepted words filled next last) :
      Accepted (word :: words) filled options last

/-! ### Looks -/

theorem look_terminator : look "--" =
    .error (.ambiguous "--" ["--help", "--format", "--strict", "--max-depth", "--max-steps",
      "--log-level", "--verbose"]) := by
  rfl

theorem ne_terminator_of_look {word : String} {l : Look} (h : look word = .ok l) :
    word ≠ "--" := by
  rintro rfl
  cases look_terminator.symm.trans h

theorem look_ne_terminator (word : String) : look word ≠ .ok .terminator := by
  intro h
  unfold look at h
  grind

theorem looks_cons_of_look {word : String} {l : Look} (h : look word = .ok l)
    (words : List String) : looks (word :: words) = (looks words).map ((word, l) :: ·) := by
  rw [looks, if_neg (ne_terminator_of_look h), h]
  cases looks words <;> rfl

theorem looks_terminator (words : List String) :
    looks ("--" :: words) = .ok (("--", .terminator) :: words.map (·, .argument)) :=
  if_pos rfl

/-- A word is a terminator, or sorted by its look. -/
theorem exists_of_looks_cons {word : String} {words : List String} {looked : List (String × Look)}
    (h : looks (word :: words) = .ok looked) :
    ∃ l rest, looked = (word, l) :: rest ∧
      (word = "--" ∧ l = .terminator ∧ rest = words.map (·, .argument) ∨
        look word = .ok l ∧ looks words = .ok rest) := by
  by_cases hword : word = "--"
  · subst hword
    rw [looks_terminator] at h
    cases h
    exact ⟨_, _, rfl, .inl ⟨rfl, rfl, rfl⟩⟩
  · rw [looks, if_neg hword] at h
    cases hlook : look word with
    | error misuse =>
      rw [hlook] at h
      cases h
    | ok l =>
      cases hlooks : looks words with
      | error misuse =>
        rw [hlook, hlooks] at h
        cases h
      | ok rest =>
        rw [hlook, hlooks] at h
        cases h
        exact ⟨l, rest, rfl, .inr ⟨rfl, rfl⟩⟩

theorem exists_of_looks_of_look {word : String} {words : List String} {l : Look}
    {looked : List (String × Look)} (hword : look word = .ok l)
    (h : looks (word :: words) = .ok looked) :
    ∃ rest, looked = (word, l) :: rest ∧ looks words = .ok rest := by
  obtain ⟨l', rest, hlooked, ⟨hterminator, -⟩ | ⟨hlook, hrest⟩⟩ := exists_of_looks_cons h
  · exact absurd hterminator (ne_terminator_of_look hword)
  · cases hword.symm.trans hlook
    exact ⟨rest, hlooked, hrest⟩

theorem looks_eq_nil {words : List String} (h : looks words = .ok []) : words = [] := by
  cases words with
  | nil => rfl
  | cons word words =>
    obtain ⟨l, rest, hnil, -⟩ := exists_of_looks_cons h
    cases hnil

theorem looks_eq_cons {words : List String} {word : String} {l : Look}
    {rest : List (String × Look)} (h : looks words = .ok ((word, l) :: rest)) :
    ∃ words', words = word :: words' ∧
      (word = "--" ∧ l = .terminator ∧ rest = words'.map (·, .argument) ∨
        look word = .ok l ∧ looks words' = .ok rest) := by
  cases words with
  | nil => cases h
  | cons first words' =>
    obtain ⟨l', rest', hcons, hfirst⟩ := exists_of_looks_cons h
    cases hcons
    exact ⟨words', rfl, hfirst⟩

/-- What is not a terminator is sorted by its look. -/
theorem looks_eq_cons_of_ne {words : List String} {word : String} {l : Look}
    {rest : List (String × Look)} (h : looks words = .ok ((word, l) :: rest))
    (hne : l ≠ .terminator) :
    ∃ words', words = word :: words' ∧ look word = .ok l ∧ looks words' = .ok rest := by
  obtain ⟨words', hwords, ⟨-, hterminator, -⟩ | hlook⟩ := looks_eq_cons h
  · exact absurd hterminator hne
  · exact ⟨words', hwords, hlook⟩

/-! ### Options without value -/

theorem Switch.mem_table_of_ofSpelling? {spelling : String} {switch : Switch}
    (h : ofSpelling? spelling = some switch) : (spelling, switch) ∈ table := by
  obtain ⟨before, after, htable, -⟩ := List.lookup_eq_some_iff.mp h
  rw [htable]
  exact List.mem_append_right before List.mem_cons_self

/-- The options of one letter ask for help or for the whole journal. -/
theorem Switch.help_or_verbose_of_letter {letter : Char} {switch : Switch}
    (h : ofSpelling? (String.ofList ['-', letter]) = some switch) :
    switch = help ∨ switch = verbose := by
  have hletter : ∀ entry ∈ table, entry.1.toList.length = 2 → entry.2 = help ∨ entry.2 = verbose :=
    by decide
  refine hletter _ (mem_table_of_ofSpelling? h) ?_
  rw [String.toList_ofList]
  rfl

theorem mem_candidates {word : List Char} {spelling : String} {switch : Switch}
    {value : Option (List Char)} (h : (spelling, switch, value) ∈ candidates word) :
    (spelling, switch) ∈ Switch.table ∧
      (isShort spelling.toList = true ∨ value = (splitEquals word).2) := by
  have hletter : ∀ entry ∈ Switch.table, entry.1.toList.length = 2 →
      isShort entry.1.toList = true := by
    decide
  unfold candidates at h
  split at h
  · obtain ⟨entry, hentry, hspelled⟩ := List.mem_filterMap.mp h
    obtain ⟨-, heq⟩ := Option.ite_none_right_eq_some.mp hspelled
    cases heq
    exact ⟨hentry, .inr rfl⟩
  · obtain ⟨entry, hentry, hspelled⟩ := List.mem_filterMap.mp h
    obtain ⟨hspelling, heq⟩ := Option.ite_none_right_eq_some.mp hspelled
    cases heq
    exact ⟨hentry, .inl (hletter entry hentry (congrArg List.length hspelling))⟩
  · cases h

/-- An option is spelled out or abbreviated. What is attached to it comes after an equals sign,
or after its one letter. -/
theorem exists_spelling_of_look {word : String} {switch : Switch} {short : Bool}
    {attached : Option String} (h : look word = .ok (.option switch short attached)) :
    ∃ spelling, (spelling, switch) ∈ Switch.table ∧ short = isShort spelling.toList ∧
      (short = true ∨ ∀ value, attached = some value →
        (splitEquals word.toList).2 = some value.toList) := by
  unfold look at h
  dsimp only at h
  split at h
  · cases h
  · split at h
    · next spelled hspelled =>
      cases h
      exact ⟨word, Switch.mem_table_of_ofSpelling? hspelled, rfl, .inr nofun⟩
    · split at h
      · next value spelled hvalue hspelled =>
        cases h
        refine ⟨_, Switch.mem_table_of_ofSpelling? hspelled, by rw [String.toList_ofList], .inr ?_⟩
        rintro _ ⟨⟩
        rw [hvalue, String.toList_ofList]
      · split at h
        · next spelling spelled value hcandidates =>
          cases h
          have hmem : (spelling, switch, value) ∈ candidates word.toList := by
            rw [hcandidates]
            exact List.mem_singleton_self _
          obtain ⟨htable, hshort | rfl⟩ := mem_candidates hmem
          · exact ⟨spelling, htable, rfl, .inl hshort⟩
          · refine ⟨spelling, htable, rfl, .inr fun attached hattached => ?_⟩
            obtain ⟨text, htext, rfl⟩ := Option.map_eq_some_iff.mp hattached
            rw [htext, String.toList_ofList]
        · cases h
        · split at h <;> cases h

/-- An option with one dash asks for help or for the whole journal. -/
theorem short_of_look {word : String} {switch : Switch} {short : Bool} {attached : Option String}
    (h : look word = .ok (.option switch short attached)) (hshort : short = true) :
    switch = .help ∨ switch = .verbose := by
  have hletter : ∀ entry ∈ Switch.table, isShort entry.1.toList = true →
      entry.2 = .help ∨ entry.2 = .verbose := by
    decide
  obtain ⟨spelling, htable, rfl, -⟩ := exists_spelling_of_look h
  exact hletter _ htable hshort

/-- A value is attached after an equals sign. -/
theorem splitEquals_of_look {word value : String} {switch : Switch} {short : Bool}
    (h : look word = .ok (.option switch short (some value))) (htakes : switch.takesValue = true) :
    (splitEquals word.toList).2 = some value.toList := by
  obtain ⟨-, -, -, hshort | hvalue⟩ := exists_spelling_of_look h
  · obtain rfl | rfl := short_of_look h hshort <;> cases htakes
  · exact hvalue value rfl

/-- The letters of a cluster ask for help or for the whole journal. -/
theorem exists_of_cluster {switch : Switch} {letters : List Char} {switches : List Switch}
    (h : cluster switch letters = .ok switches) :
    ∃ more, switches = switch :: more ∧ ∀ next ∈ more, next = .help ∨ next = .verbose := by
  induction letters generalizing switch switches with
  | nil =>
    cases h
    exact ⟨[], rfl, nofun⟩
  | cons letter letters ih =>
    rw [cluster] at h
    cases hnext : Switch.ofSpelling? (String.ofList ['-', letter]) with
    | none =>
      rw [hnext] at h
      cases h
    | some next =>
      simp only [hnext] at h
      cases hcluster : cluster next letters with
      | error misuse =>
        rw [hcluster] at h
        cases h
      | ok more =>
        rw [hcluster] at h
        cases h
        obtain ⟨more, rfl, hmore⟩ := ih hcluster
        refine ⟨_, rfl, List.forall_mem_cons.mpr ⟨?_, hmore⟩⟩
        exact Switch.help_or_verbose_of_letter hnext

theorem turnOn_letters {switches : List Switch} {options next : Options}
    (hswitches : ∀ switch ∈ switches, switch = .help ∨ switch = .verbose)
    (h : turnOn { options with verbose := true } switches = some next) :
    next = { options with verbose := true } := by
  induction switches with
  | nil => exact (Option.some.inj h).symm
  | cons switch switches ih =>
    rw [List.forall_mem_cons] at hswitches
    obtain ⟨rfl | rfl, hswitches⟩ := hswitches
    · cases h
    · exact ih hswitches h

/-- An option without value asks for an audit or for the whole journal, unless for help. -/
theorem turnOn_flags {word : String} {switch : Switch} {short : Bool} {attached : Option String}
    {switches : List Switch} {options next : Options}
    (hword : look word = .ok (.option switch short attached)) (htakes : switch.takesValue = false)
    (hflags : flags switch short attached = .ok switches)
    (hon : turnOn options switches = some next) :
    switch = .strict ∧ switches = [.strict] ∧ next = { options with strict := true } ∨
      switch = .verbose ∧ next = { options with verbose := true } := by
  obtain ⟨more, rfl, hmore⟩ : ∃ more, switches = switch :: more ∧
      ∀ next ∈ more, short = true ∧ (next = .help ∨ next = .verbose) := by
    unfold flags at hflags
    split at hflags
    · cases hflags
      exact ⟨[], rfl, nofun⟩
    · split at hflags
      · next value hvalue =>
        obtain ⟨more, rfl, hmore⟩ := exists_of_cluster hflags
        exact ⟨more, rfl, fun next hnext => ⟨hvalue.1, hmore next hnext⟩⟩
      · cases hflags
  cases switch with
  | help => cases hon
  | strict =>
    cases more with
    | nil => exact .inl ⟨rfl, rfl, (Option.some.inj hon).symm⟩
    | cons letter more =>
      obtain ⟨hshort, -⟩ := hmore letter List.mem_cons_self
      obtain hstrict | hstrict := short_of_look hword hshort <;> cases hstrict
  | verbose => exact .inr ⟨rfl, turnOn_letters (fun next hnext => (hmore next hnext).2) hon⟩
  | format | maxDepth | maxSteps | logLevel => cases htakes

/-! ### Taking words -/

/-- Of words that are all arguments, only a file is accepted. -/
theorem take_arguments {words : List String} {p : Intake} {last : Options}
    (h : take (words.map (·, .argument)) p = .ok (.run last)) :
    p.extras = [] ∧ (words = [] ∧ last = p.options ∨
      ∃ word, words = [word] ∧ p.filled = false ∧ last = { p.options with file := some word }) := by
  induction words generalizing p with
  | nil =>
    rw [List.map_nil, take, Intake.finish] at h
    split at h
    · next hextras =>
      cases h
      exact ⟨List.isEmpty_iff.mp hextras, .inl ⟨rfl, rfl⟩⟩
    · cases h
  | cons word words ih =>
    obtain ⟨options, filled, extras⟩ := p
    have hplace : take (words.map (·, .argument)) (Intake.place ⟨options, filled, extras⟩ word) =
        .ok (.run last) := by
      rw [← h, List.map_cons, take]
      rintro word' rest - hhead
      cases words <;> cases hhead
    obtain ⟨hextras, hwords⟩ := ih hplace
    cases filled with
    | true => cases hextras
    | false =>
      obtain ⟨rfl, rfl⟩ | ⟨word', -, hfilled, -⟩ := hwords
      · exact ⟨hextras, .inr ⟨word, rfl, rfl, rfl⟩⟩
      · cases hfilled

/-- What is taken for a run follows the grammar. -/
theorem accepted_of_take {looked : List (String × Look)} {p : Intake} {last : Options}
    {words : List String} (hlooks : looks words = .ok looked)
    (h : take looked p = .ok (.run last)) :
    p.extras = [] ∧ Accepted words p.filled p.options last := by
  fun_induction take looked p generalizing words with
  | case1 p =>
    obtain rfl := looks_eq_nil hlooks
    obtain ⟨hextras, ⟨-, rfl⟩ | ⟨word, hnil, -⟩⟩ := @take_arguments [] _ _ h
    · exact ⟨hextras, .done⟩
    · cases hnil
  | case2 word p next rest hfilled ih =>
    obtain ⟨_, rfl, hword, hlooks⟩ := looks_eq_cons_of_ne hlooks nofun
    obtain ⟨words, rfl, ⟨rfl, -, rfl⟩ | ⟨hnext, -⟩⟩ := looks_eq_cons hlooks
    · obtain ⟨options, filled, extras⟩ := p
      cases hfilled
      obtain ⟨hextras, ⟨rfl, rfl⟩ | ⟨word', -, hfilled, -⟩⟩ := take_arguments h
      · exact ⟨hextras, .fileEnded hword⟩
      · cases hfilled
    · exact absurd hnext (look_ne_terminator next)
  | case3 word p rest hother ih =>
    obtain ⟨words, rfl, hword, hlooks⟩ := looks_eq_cons_of_ne hlooks nofun
    obtain ⟨hextras, hrest⟩ := ih hlooks h
    obtain ⟨options, filled, extras⟩ := p
    cases filled with
    | true => cases hextras
    | false => exact ⟨hextras, .file hword hrest⟩
  | case4 word rest p ih =>
    obtain ⟨words, rfl, ⟨rfl, -, rfl⟩ | ⟨hword, -⟩⟩ := looks_eq_cons hlooks
    · obtain ⟨options, filled, extras⟩ := p
      obtain ⟨hextras, hwords⟩ := take_arguments h
      cases filled with
      | true => cases hextras
      | false =>
        obtain ⟨rfl, rfl⟩ | ⟨word, rfl, -, rfl⟩ := hwords
        · exact ⟨hextras, .ended⟩
        · exact ⟨hextras, .endedFile⟩
    · exact absurd hword (look_ne_terminator word)
  | case5 word rest p ih =>
    obtain ⟨words, rfl, hword, hlooks⟩ := looks_eq_cons_of_ne hlooks nofun
    cases (ih hlooks h).1
  | case6 word switch short p htakes rest ih =>
    obtain ⟨words, rfl, hword, hlooks⟩ := looks_eq_cons_of_ne hlooks nofun
    obtain ⟨hextras, hrest⟩ := ih hlooks h
    exact ⟨hextras, .blank hword htakes hrest⟩
  | case7 word switch short p htakes value rest hvalue options hassign ih =>
    obtain ⟨words, rfl, hword, hlooks⟩ := looks_eq_cons_of_ne hlooks nofun
    obtain ⟨hextras, hrest⟩ := ih hlooks h
    exact ⟨hextras, .attached hword htakes hvalue hassign hrest⟩
  | case9 word switch short p htakes value rest options hassign ih =>
    obtain ⟨_, rfl, hword, hlooks⟩ := looks_eq_cons_of_ne hlooks nofun
    obtain ⟨words, rfl, hvalue, hlooks⟩ := looks_eq_cons_of_ne hlooks nofun
    obtain ⟨hextras, hrest⟩ := ih hlooks h
    exact ⟨hextras, .following hword htakes hvalue hassign hrest⟩
  | case13 word switch short attached rest p hflag switches hflags options hon ih =>
    obtain ⟨words, rfl, hword, hlooks⟩ := looks_eq_cons_of_ne hlooks nofun
    obtain ⟨hextras, hrest⟩ := ih hlooks h
    exact ⟨hextras, .flags hword (Bool.eq_false_iff.mpr hflag) hflags hon hrest⟩
  | case8 | case10 | case11 | case12 | case14 => cases h

/-- There is no terminator once there has been a file. -/
theorem Accepted.ne_terminator {words : List String} {options last : Options}
    (h : Accepted words true options last) (words' : List String) : words ≠ "--" :: words' := by
  rintro rfl
  cases h with
  | blank hword => exact ne_terminator_of_look hword rfl
  | attached hword => exact ne_terminator_of_look hword rfl
  | following hword => exact ne_terminator_of_look hword rfl
  | flags hword => exact ne_terminator_of_look hword rfl

/-- What follows the grammar is taken for a run. -/
theorem Accepted.exists_looks {words : List String} {filled : Bool} {options last : Options}
    (h : Accepted words filled options last) :
    ∃ looked, looks words = .ok looked ∧ take looked ⟨options, filled, []⟩ = .ok (.run last) := by
  induction h with
  | done => exact ⟨[], rfl, rfl⟩
  | file hword hrest ih =>
    obtain ⟨looked, hlooks, htake⟩ := ih
    refine ⟨_, by rw [looks_cons_of_look hword, hlooks]; rfl, ?_⟩
    rw [← htake, take]
    · rfl
    · rintro word rest - rfl
      obtain ⟨words', hwords, ⟨rfl, -⟩ | ⟨hword, -⟩⟩ := looks_eq_cons hlooks
      · exact hrest.ne_terminator words' hwords
      · exact look_ne_terminator word hword
  | fileEnded hword =>
    refine ⟨_, by rw [looks_cons_of_look hword, looks_terminator]; rfl, ?_⟩
    rfl
  | endedFile => exact ⟨_, looks_terminator _, rfl⟩
  | ended => exact ⟨_, looks_terminator _, rfl⟩
  | blank hword htakes hrest ih =>
    obtain ⟨looked, hlooks, htake⟩ := ih
    refine ⟨_, by rw [looks_cons_of_look hword, hlooks]; rfl, ?_⟩
    simp only [take, htakes, if_true]
    exact htake
  | attached hword htakes hvalue hassign hrest ih =>
    obtain ⟨looked, hlooks, htake⟩ := ih
    refine ⟨_, by rw [looks_cons_of_look hword, hlooks]; rfl, ?_⟩
    simp only [take, htakes, if_true, if_neg hvalue, hassign]
    exact htake
  | following hword htakes hvalue hassign hrest ih =>
    obtain ⟨looked, hlooks, htake⟩ := ih
    refine ⟨_, by rw [looks_cons_of_look hword, looks_cons_of_look hvalue, hlooks]; rfl, ?_⟩
    simp only [take, htakes, if_true, hassign]
    exact htake
  | flags hword htakes hflags hon hrest ih =>
    obtain ⟨looked, hlooks, htake⟩ := ih
    refine ⟨_, by rw [looks_cons_of_look hword, hlooks]; rfl, ?_⟩
    rw [take.eq_def]
    simp only [htakes, Bool.false_eq_true, if_false, hflags, hon]
    exact htake

/-- **A command asks for a run when it follows the grammar.** -/
theorem parse_eq_run_iff {words : List String} {options : Options} :
    parse words = .ok (.run options) ↔ Accepted words false {} options := by
  constructor
  · intro h
    cases hlooks : looks words with
    | error misuse =>
      rw [parse, hlooks] at h
      cases h
    | ok looked =>
      rw [parse, hlooks] at h
      exact (accepted_of_take hlooks h).2
  · intro h
    obtain ⟨looked, hlooks, htake⟩ := h.exists_looks
    rw [parse, hlooks]
    exact htake

/-! ### What words make of options -/

theorem Options.readInteger_of_integer {switch : Switch} {value : String} {n : Int}
    (h : integer switch value = .ok n) : Text.readInteger value = .ok n := by
  unfold integer at h
  split at h
  · next n hread =>
    cases h
    exact hread
  · cases h

/-- To give an option a value changes one place of the options, for which the value is read. Whether
it can be read does not depend on the options so far. -/
theorem Options.assign_cases (switch : Switch) (value : String) :
    (∃ misuse, ∀ options : Options, options.assign switch value = .error misuse) ∨
      (switch = .format ∧ ∃ format, ∀ options : Options,
        options.assign switch value = .ok { options with format }) ∨
      (switch = .maxDepth ∧ ∃ n, Text.readInteger value = .ok n ∧ ∀ options : Options,
        options.assign switch value = .ok { options with maxDepth := .value n }) ∨
      (switch = .maxSteps ∧ ∃ n, Text.readInteger value = .ok n ∧ ∀ options : Options,
        options.assign switch value = .ok { options with maxSteps := .value n }) ∨
      switch = .logLevel ∧ ∃ severity, ∀ options : Options,
        options.assign switch value = .ok { options with logLevel := .value severity } := by
  cases switch with
  | format =>
    cases hformat : Format.choices.lookup value with
    | none => exact .inl ⟨_, fun options => by rw [assign, hformat]⟩
    | some format => exact .inr (.inl ⟨rfl, format, fun options => by rw [assign, hformat]⟩)
  | maxDepth =>
    cases hn : integer .maxDepth value with
    | error misuse => exact .inl ⟨misuse, fun options => by rw [assign, hn]; rfl⟩
    | ok n =>
      refine .inr (.inr (.inl ⟨rfl, n, readInteger_of_integer hn, fun options => ?_⟩))
      rw [assign, hn]
      rfl
  | maxSteps =>
    cases hn : integer .maxSteps value with
    | error misuse => exact .inl ⟨misuse, fun options => by rw [assign, hn]; rfl⟩
    | ok n =>
      refine .inr (.inr (.inr (.inl ⟨rfl, n, readInteger_of_integer hn, fun options => ?_⟩)))
      rw [assign, hn]
      rfl
  | logLevel =>
    cases hseverity : Severity.ofName? (Text.uppercase value) with
    | none =>
      refine .inl ⟨.invalidChoice .logLevel (Text.uppercase value) (Severity.all.map (·.name)),
        fun options => ?_⟩
      simp only [assign, hseverity]
    | some severity =>
      refine .inr (.inr (.inr (.inr ⟨rfl, severity, fun options => ?_⟩)))
      simp only [assign, hseverity]
  | help | strict | verbose => exact .inl ⟨_, fun options => rfl⟩

theorem Options.assign_eq_ok {options next : Options} {switch : Switch} {value : String}
    (h : options.assign switch value = .ok next) :
    (∃ format, next = { options with format }) ∨
      (∃ n, Text.readInteger value = .ok n ∧ next = { options with maxDepth := .value n }) ∨
      (∃ n, Text.readInteger value = .ok n ∧ next = { options with maxSteps := .value n }) ∨
      ∃ severity, next = { options with logLevel := .value severity } := by
  obtain ⟨misuse, hassign⟩ | ⟨-, format, hassign⟩ | ⟨-, n, hn, hassign⟩ | ⟨-, n, hn, hassign⟩ |
    ⟨-, severity, hassign⟩ := assign_cases switch value <;> cases (hassign options).symm.trans h
  · exact .inl ⟨format, rfl⟩
  · exact .inr (.inl ⟨n, hn, rfl⟩)
  · exact .inr (.inr (.inl ⟨n, hn, rfl⟩))
  · exact .inr (.inr (.inr ⟨severity, rfl⟩))

/-- How a word of a command can change its options. -/
inductive Options.Change (words : List String) (options : Options) : Options → Prop
  | file {word : String} (hword : word ∈ words) :
      Change words options { options with file := some word }
  | blank {word front : String} {switch : Switch} (hword : word ∈ words)
      (hblank : word = front ++ "=--") : Change words options (options.leaveBlank switch)
  | assign {switch : Switch} {value : String} {next : Options}
      (hassign : options.assign switch value = .ok next) : Change words options next
  | strict : Change words options { options with strict := true }
  | verbose : Change words options { options with verbose := true }

theorem exists_of_splitEquals {word value : List Char} (h : (splitEquals word).2 = some value) :
    ∃ front, word = front ++ '=' :: value := by
  have hword : word.takeWhile (· ≠ '=') ++ word.dropWhile (· ≠ '=') = word :=
    List.takeWhile_append_dropWhile
  unfold splitEquals at h
  split at h
  · cases h
  · next c value' hdrop =>
    cases h
    rw [hdrop] at hword
    have hequals : c = '=' := by
      have hhead := List.head?_dropWhile_not (· ≠ '=') word
      rw [hdrop] at hhead
      simpa using hhead
    exact ⟨_, by rw [← hequals]; exact hword.symm⟩

/-- A value is left blank by a word that has it attached. -/
theorem exists_of_look_blank {word : String} {switch : Switch} {short : Bool}
    (h : look word = .ok (.option switch short (some "--"))) (htakes : switch.takesValue = true) :
    ∃ front, word = front ++ "=--" := by
  obtain ⟨front, hfront⟩ := exists_of_splitEquals (splitEquals_of_look h htakes)
  refine ⟨String.ofList front, String.toList_inj.mp ?_⟩
  rw [String.toList_append, String.toList_ofList]
  exact hfront

/-- What no word of a command changes about its options still holds in the end. -/
theorem Accepted.keeps {P : Options → Prop} {all words : List String} {filled : Bool}
    {options last : Options} (h : Accepted words filled options last)
    (hall : ∀ word ∈ words, word ∈ all)
    (hchange : ∀ options next, options.Change all next → P options → P next)
    (hoptions : P options) : P last := by
  induction h with
  | done | ended => exact hoptions
  | file hword hrest ih =>
    rw [List.forall_mem_cons] at hall
    exact ih hall.2 (hchange _ _ (.file hall.1) hoptions)
  | @fileEnded word options hword => exact hchange _ _ (.file (hall word (by simp))) hoptions
  | @endedFile word options => exact hchange _ _ (.file (hall word (by simp))) hoptions
  | blank hword htakes hrest ih =>
    rw [List.forall_mem_cons] at hall
    obtain ⟨front, hblank⟩ := exists_of_look_blank hword htakes
    exact ih hall.2 (hchange _ _ (.blank hall.1 hblank) hoptions)
  | attached hword htakes hvalue hassign hrest ih =>
    rw [List.forall_mem_cons] at hall
    exact ih hall.2 (hchange _ _ (.assign hassign) hoptions)
  | following hword htakes hvalue hassign hrest ih =>
    simp only [List.forall_mem_cons] at hall
    exact ih hall.2.2 (hchange _ _ (.assign hassign) hoptions)
  | flags hword htakes hflags hon hrest ih =>
    rw [List.forall_mem_cons] at hall
    obtain ⟨-, -, rfl⟩ | ⟨-, rfl⟩ := turnOn_flags hword htakes hflags hon
    · exact ih hall.2 (hchange _ _ .strict hoptions)
    · exact ih hall.2 (hchange _ _ .verbose hoptions)

/-! ### Runs -/

/-- A command that leaves the severity blank only when it has no need for it reports what comes of
its run. -/
theorem run_of_severity (store : Store) {read : String → Except SourceFile.Failure String}
    {words : List String} {options : Options} (hparse : parse words = .ok (.run options))
    (hlevel : options.logLevel.isBlank = true → options.verbose = true) :
    run store words read = (perform options read).map (reportRun store options) := by
  have hsevere : ¬(options.logLevel.isBlank && !options.verbose) = true := by
    intro h
    rw [Bool.and_eq_true, Bool.not_eq_true'] at h
    rw [hlevel h.1] at h
    cases h.2
  rw [run, hparse]
  exact if_neg hsevere

end PlusLisp.CommandLine
