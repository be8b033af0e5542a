import PlusLisp.Proofs.CommandLine.Spelling

/-!
Commands made of groups of words, each of which gives a value to one option, turns one on, or names
the file. How a group is spelled does not matter, and neither does its place among groups about
other options: what a command asks for depends on the last value of each option, on the options that
are turned on, and on the file (`Options.ofGroups`, `parse_spelled`).

Main statement: `run_spelled`.
-/

namespace PlusLisp.CommandLine

/-- What a group of words says. -/
inductive Group where
  /-- An option has a value. -/
  | setting (switch : Switch) (value : String)
  /-- An option without value is turned on. -/
  | flag (switch : Switch)
  /-- A word is the file. -/
  | file (word : String)
  deriving DecidableEq, Repr

/-- The words of a group. A long name may be abbreviated, and a value, which has to be one that the
option can have and that does not look like an option, may be attached to it. -/
inductive Spells : Group → List String → Prop
  | attached {name value : String} {switch : Switch} {next : Options}
      (hname : Abbreviates name switch) (htakes : switch.takesValue = true)
      (hvalue : IsPlain value) (hvalid : ({} : Options).assign switch value = .ok next) :
      Spells (.setting switch value) [name ++ "=" ++ value]
  | following {name value : String} {switch : Switch} {next : Options}
      (hname : Abbreviates name switch) (htakes : switch.takesValue = true)
      (hvalue : IsPlain value) (hvalid : ({} : Options).assign switch value = .ok next) :
      Spells (.setting switch value) [name, value]
  | strict {name : String} (hname : Abbreviates name .strict) : Spells (.flag .strict) [name]
  | verbose {name : String} (hname : Abbreviates name .verbose) : Spells (.flag .verbose) [name]
  | letter : Spells (.flag .verbose) ["-v"]
  | file {word : String} (hword : word.toList.head? ≠ some '-') : Spells (.file word) [word]

/-- The words of groups, one group after the other. -/
inductive Spelled : List Group → List String → Prop
  | nil : Spelled [] []
  | cons {group : Group} {groups : List Group} {words rest : List String} :
      Spells group words → Spelled groups rest → Spelled (group :: groups) (words ++ rest)

namespace Group

/-- The value that a group gives to an option. -/
def value? (switch : Switch) : Group → Option String
  | setting switch' value => if switch' = switch then some value else none
  | _ => none

/-- The file that a group names. -/
def file? : Group → Option String
  | file word => some word
  | _ => none

/-- The option that a group is about; the one that names the file is about none. -/
def subject : Group → Option Switch
  | setting switch _ | flag switch => some switch
  | file _ => none

end Group

/-- The files that groups name. -/
def files (groups : List Group) : List String := groups.filterMap Group.file?

/-- The last value that groups give to an option. -/
def lastValue (groups : List Group) (switch : Switch) : Option String :=
  (groups.filterMap (Group.value? switch)).getLast?

/-! ### What groups ask for -/

namespace Options

/-- The options with a value for one of them, if that can have it. -/
def give (options : Options) (switch : Switch) (value : String) : Options :=
  match options.assign switch value with
  | .ok next => next
  | .error _ => options

/-- The options of a command with nothing but the last value that groups give to an option. -/
def ofLast (groups : List Group) (switch : Switch) : Options :=
  match lastValue groups switch with
  | some value => ({} : Options).give switch value
  | none => {}

/-- The options that groups ask for: each as its last value says, or turned on if any group does
so. -/
def ofGroups (groups : List Group) : Options where
  file := (files groups).getLast?
  format := (ofLast groups .format).format
  strict := decide (.flag .strict ∈ groups)
  maxDepth := (ofLast groups .maxDepth).maxDepth
  maxSteps := (ofLast groups .maxSteps).maxSteps
  logLevel := (ofLast groups .logLevel).logLevel
  verbose := decide (.flag .verbose ∈ groups)

/-- The options after one more group. -/
def after (options : Options) : Group → Options
  | .setting switch value => options.give switch value
  | .flag switch => (turnOn options [switch]).getD options
  | .file word => { options with file := some word }

variable {options next : Options} {switch : Switch} {value : String}

theorem give_of_assign (h : options.assign switch value = .ok next) :
    options.give switch value = next := by
  rw [give, h]

/-- An option can have a value whatever the other options are. -/
theorem assign_of_assign (h : ({} : Options).assign switch value = .ok next) (options : Options) :
    options.assign switch value = .ok (options.give switch value) := by
  obtain ⟨misuse, hassign⟩ | ⟨-, _, hassign⟩ | ⟨-, _, -, hassign⟩ | ⟨-, _, -, hassign⟩ |
    ⟨-, _, hassign⟩ := assign_cases switch value
  · cases (hassign {}).symm.trans h
  all_goals rw [give_of_assign (hassign options), hassign options]

end Options

section

variable {groups groups' : List Group} {group : Group} {words words' : List String}

theorem files_concat (groups : List Group) (group : Group) :
    files (groups ++ [group]) = files groups ++ group.file?.toList := by
  rw [files, List.filterMap_append]
  cases group <;> rfl

/-- The last group gives an option its last value, if it gives it any. -/
theorem lastValue_concat (groups : List Group) (group : Group) (switch : Switch) :
    lastValue (groups ++ [group]) switch = (group.value? switch).or (lastValue groups switch) := by
  rw [lastValue, List.filterMap_append, List.getLast?_append]
  cases hvalue : group.value? switch <;> simp [hvalue, lastValue]

theorem Options.ofLast_concat (groups : List Group) (group : Group) (switch : Switch) :
    ofLast (groups ++ [group]) switch =
      match group.value? switch with
      | some value => ({} : Options).give switch value
      | none => ofLast groups switch := by
  rw [ofLast, lastValue_concat]
  cases group.value? switch <;> rfl

/-- What groups ask for can be told group by group. -/
theorem Options.ofGroups_concat (h : Spells group words) :
    ofGroups (groups ++ [group]) = (ofGroups groups).after group := by
  have hsetting {switch : Switch} {value : String} {next : Options}
      (hvalid : ({} : Options).assign switch value = .ok next) :
      ofGroups (groups ++ [.setting switch value]) =
        (ofGroups groups).after (.setting switch value) := by
    have hgive := give_of_assign hvalid
    obtain ⟨misuse, hassign⟩ | ⟨rfl, _, hassign⟩ | ⟨rfl, _, -, hassign⟩ | ⟨rfl, _, -, hassign⟩ |
      ⟨rfl, _, hassign⟩ := assign_cases switch value
    · cases (hassign {}).symm.trans hvalid
    all_goals
      rw [after, give_of_assign (hassign _)]
      cases (hassign {}).symm.trans hvalid
      simp [ofGroups, ofLast_concat, Group.value?, files_concat, Group.file?, hgive]
  cases h with
  | attached hname htakes hvalue hvalid => exact hsetting hvalid
  | following hname htakes hvalue hvalid => exact hsetting hvalid
  | strict | verbose | letter | file =>
    simp [ofGroups, ofLast_concat, Group.value?, files_concat, Group.file?, after, turnOn]

theorem Spelled.exists_spells (h : Spelled groups words) :
    ∀ group ∈ groups, ∃ words, Spells group words := by
  induction h with
  | nil => exact List.forall_mem_nil _
  | cons hgroup _ ih => exact List.forall_mem_cons.mpr ⟨⟨_, hgroup⟩, ih⟩

theorem Options.foldl_after (h : ∀ group ∈ groups, ∃ words, Spells group words) :
    groups.foldl after {} = ofGroups groups := by
  induction groups using List.reverseRecOn with
  | nil => rfl
  | append_singleton groups group ih =>
    rw [List.forall_mem_append, List.forall_mem_singleton] at h
    obtain ⟨hgroups, words, hgroup⟩ := h
    rw [List.foldl_append, ih hgroups, ofGroups_concat hgroup]
    rfl

/-! ### Commands made of groups -/

theorem IsPlain.ne_terminator {value : String} (h : IsPlain value) : value ≠ "--" := by
  rintro rfl
  obtain hfirst | ⟨digits, htext, hdigits⟩ := h
  · exact hfirst rfl
  · cases htext
    exact absurd (hdigits '-' List.mem_cons_self) (by decide)

/-- Words of groups are accepted one group after the other, with one file at most. -/
theorem Spelled.accepted (h : Spelled groups words) {filled : Bool}
    (hfiles : (files groups).length + filled.toNat ≤ 1) (options : Options) :
    Accepted words filled options (groups.foldl Options.after options) := by
  induction h generalizing filled options with
  | nil => exact .done
  | @cons group groups words rest hgroup _ ih =>
    rw [List.foldl_cons]
    cases hgroup with
    | attached hname htakes hvalue hvalid =>
      exact .attached (look_attached hname _) htakes hvalue.ne_terminator
        (Options.assign_of_assign hvalid options) (ih hfiles _)
    | following hname htakes hvalue hvalid =>
      exact .following (look_of_abbreviates hname) htakes (look_of_isPlain hvalue)
        (Options.assign_of_assign hvalid options) (ih hfiles _)
    | strict hname | verbose hname =>
      exact .flags (look_of_abbreviates hname) rfl rfl rfl (ih hfiles _)
    | letter =>
      have hletter : look "-v" = .ok (.option .verbose true none) := by rfl
      exact .flags hletter rfl rfl rfl (ih hfiles _)
    | @file word hword =>
      have hcount : (files groups).length + 1 + filled.toNat ≤ 1 := hfiles
      cases filled with
      | true => exact absurd hcount (by simp)
      | false =>
        refine .file (look_of_head?_ne hword) (ih ?_ _)
        rw [Bool.toNat_true]
        exact hcount

/-- Words of groups with one file at most ask for what the groups say. -/
theorem parse_spelled (h : Spelled groups words) (hfiles : (files groups).length ≤ 1) :
    parse words = .ok (.run (.ofGroups groups)) := by
  rw [parse_eq_run_iff, ← Options.foldl_after h.exists_spells]
  exact h.accepted (Nat.add_zero _ ▸ hfiles) {}

/-- Groups say the same: they give each option the same last value, turn on the same options, and
name the same file. -/
structure SaySame (groups groups' : List Group) : Prop where
  values : ∀ switch, lastValue groups switch = lastValue groups' switch
  strict : .flag .strict ∈ groups ↔ .flag .strict ∈ groups'
  verbose : .flag .verbose ∈ groups ↔ .flag .verbose ∈ groups'
  files : files groups = files groups'

theorem SaySame.ofGroups_eq (h : SaySame groups groups') :
    Options.ofGroups groups = Options.ofGroups groups' := by
  simp only [Options.ofGroups, Options.ofLast, h.values, h.strict, h.verbose, h.files]

/-- Groups are those of another sequence in another order, but for the order of groups about the
same option. -/
def Rearranged (groups groups' : List Group) : Prop :=
  ∀ subject, groups.filter (·.subject = subject) = groups'.filter (·.subject = subject)

/-- What groups about one thing say is not changed by a rearrangement. -/
theorem Rearranged.filterMap_eq {α : Type} (h : Rearranged groups groups')
    (subject : Option Switch) {said : Group → Option α}
    (hsaid : ∀ group : Group, group.subject ≠ subject → said group = none) :
    groups.filterMap said = groups'.filterMap said := by
  have hfilter (groups : List Group) :
      (groups.filter (·.subject = subject)).filterMap said = groups.filterMap said := by
    rw [List.filterMap_filter]
    refine List.filterMap_congr fun group _ => ?_
    by_cases hsubject : group.subject = subject
    · simp [hsubject]
    · simp [hsubject, hsaid group hsubject]
  rw [← hfilter groups, h subject, hfilter]

theorem Rearranged.mem_iff (h : Rearranged groups groups') : group ∈ groups ↔ group ∈ groups' := by
  have hmem (groups : List Group) :
      group ∈ groups.filter (·.subject = group.subject) ↔ group ∈ groups := by
    simp
  rw [← hmem groups, h group.subject, hmem]

theorem Rearranged.saySame (h : Rearranged groups groups') : SaySame groups groups' where
  values switch := by
    refine congrArg List.getLast? (h.filterMap_eq (some switch) fun group hsubject => ?_)
    cases group with
    | setting switch' value => exact if_neg fun heq => hsubject (congrArg some heq)
    | flag | file => rfl
  strict := h.mem_iff
  verbose := h.mem_iff
  files := by
    refine h.filterMap_eq none fun group hsubject => ?_
    cases group with
    | file word => exact absurd rfl hsubject
    | setting | flag => rfl

/-- **Neither order nor spelling counts, only what is said last.** Take two commands that are made
of groups of words, each with one file at most. They ask for the same run, and are reported on
alike, when their groups say the same in the end: the last value of each option, which options are
turned on, and the file. So they do when the groups of the one are those of the other in another
order, but for groups about the same option, and whatever names and places of values spell them. -/
theorem run_spelled (store : Store) (read : String → Except SourceFile.Failure String)
    (hwords : Spelled groups words) (hwords' : Spelled groups' words')
    (hfiles : (files groups).length ≤ 1) (hfiles' : (files groups').length ≤ 1)
    (hsame : SaySame groups groups' ∨ Rearranged groups groups') :
    parse words = .ok (.run (.ofGroups groups)) ∧ parse words' = .ok (.run (.ofGroups groups)) ∧
      run store words read = run store words' read := by
  have hparse := parse_spelled hwords hfiles
  have hparse' := parse_spelled hwords' hfiles'
  rw [← (hsame.elim id Rearranged.saySame).ofGroups_eq] at hparse'
  refine ⟨hparse, hparse', ?_⟩
  rw [run, run, hparse, hparse']

end

/-- The same run is asked for in another order and with other names, and without a value that does
not last. -/
theorem run_spelled_abbreviated :
    let groups : List Group := [.setting .maxDepth "-3", .flag .verbose, .file "p.lisp",
      .setting .maxDepth "5"]
    let groups' : List Group := [.file "p.lisp", .setting .maxDepth "-3", .setting .maxDepth "5",
      .flag .verbose]
    let groups'' : List Group := [.setting .maxDepth "5", .flag .verbose, .file "p.lisp"]
    let words := ["--max-d", "-3", "-v", "p.lisp", "--max-depth=5"]
    let words' := ["p.lisp", "--max-depth=-3", "--max-d", "5", "--verb"]
    let words'' := ["--max-d=5", "--verbose", "p.lisp"]
    let read : String → Except SourceFile.Failure String := fun _ => .ok "(+ 1 2)"
    Spelled groups words ∧ Spelled groups' words' ∧ Spelled groups'' words'' ∧
      (files groups).length ≤ 1 ∧ (files groups').length ≤ 1 ∧ (files groups'').length ≤ 1 ∧
      Rearranged groups groups' ∧ SaySame groups groups'' ∧
      run .empty words read = run .empty words' read ∧
      run .empty words read = run .empty words'' read := by
  intro groups groups' groups'' words words' words'' read
  have hdepth : Abbreviates "--max-depth" .maxDepth :=
    ⟨"--max-depth", by decide, by decide, by decide, by decide⟩
  have hdepth' : Abbreviates "--max-d" .maxDepth :=
    ⟨"--max-depth", by decide, by decide, by decide, by decide⟩
  have hverbose : Abbreviates "--verb" .verbose :=
    ⟨"--verbose", by decide, by decide, by decide, by decide⟩
  have hverbose' : Abbreviates "--verbose" .verbose :=
    ⟨"--verbose", by decide, by decide, by decide, by decide⟩
  have hminus : IsPlain "-3" := .inr ⟨['3'], by decide, List.all_eq_true.mp (by decide)⟩
  have hplain : IsPlain "5" := .inl (by decide)
  have hvalid : ({} : Options).assign .maxDepth "-3" = .ok { maxDepth := .value (-3) } := by rfl
  have hvalid' : ({} : Options).assign .maxDepth "5" = .ok { maxDepth := .value 5 } := by rfl
  have hfile : Spells (.file "p.lisp") ["p.lisp"] := .file (by decide)
  have hwords : Spelled groups words :=
    .cons (.following hdepth' rfl hminus hvalid) (.cons .letter (.cons hfile
      (.cons (.attached hdepth rfl hplain hvalid') .nil)))
  have hwords' : Spelled groups' words' :=
    .cons hfile (.cons (.attached hdepth rfl hminus hvalid)
      (.cons (.following hdepth' rfl hplain hvalid') (.cons (.verbose hverbose) .nil)))
  have hwords'' : Spelled groups'' words'' :=
    .cons (.attached hdepth' rfl hplain hvalid') (.cons (.verbose hverbose') (.cons hfile .nil))
  have hrearranged : Rearranged groups groups' := by
    rintro (_ | switch)
    · rfl
    · cases switch <;> rfl
  have hsay : SaySame groups groups'' := by
    constructor
    · intro switch
      cases switch <;> rfl
    · decide
    · decide
    · rfl
  have hfiles : (files groups).length ≤ 1 := by decide
  have hfiles' : (files groups').length ≤ 1 := by decide
  have hfiles'' : (files groups'').length ≤ 1 := by decide
  refine ⟨hwords, hwords', hwords'', hfiles, hfiles', hfiles'', hrearranged, hsay, ?_, ?_⟩
  · exact (run_spelled .empty read hwords hwords' hfiles hfiles' (.inr hrearranged)).2.2
  · exact (run_spelled .empty read hwords hwords'' hfiles hfiles'' (.inl hsay)).2.2

end PlusLisp.CommandLine
