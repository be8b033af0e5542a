import PlusLisp.Proofs.CommandLine.Accepted

/-!
What a command shows of its journal. The options that decide about it change nothing about the run:
of two commands that differ only in these, the one that shows less leaves out the lines that are not
grave enough, and everything else is the same.

Main statement: `run_quiets`.
-/

namespace PlusLisp.CommandLine

variable {words : List String} {options last : Options}

/-! ### Words -/

/-- The words of a command without the options that decide what is shown of the journal, and
without the values of these. -/
def unlogged : List String → List String
  | [] => []
  | word :: words =>
    if word = "--" then word :: words
    else
      match look word with
      | .ok (.option .verbose _ _) | .ok (.option .logLevel _ (some _)) => unlogged words
      | .ok (.option .logLevel _ none) =>
        match words with
        | [] => []
        | _ :: words => unlogged words
      | _ => word :: unlogged words

/-- The options without those that decide what is shown of the journal. -/
def Options.silent (options : Options) : Options :=
  { options with logLevel := .unset, verbose := false }

theorem unlogged_of_look_argument {word : String} (h : look word = .ok .argument) :
    unlogged (word :: words) = word :: unlogged words := by
  rw [unlogged.eq_def]
  simp only [if_neg (ne_terminator_of_look h), h]

theorem unlogged_of_look_option {word : String} {switch : Switch} {short : Bool}
    {attached : Option String} (h : look word = .ok (.option switch short attached))
    (hlevel : switch ≠ .logLevel) (hverbose : switch ≠ .verbose) :
    unlogged (word :: words) = word :: unlogged words := by
  rw [unlogged.eq_def]
  simp only [if_neg (ne_terminator_of_look h), h]
  cases switch with
  | logLevel => exact absurd rfl hlevel
  | verbose => exact absurd rfl hverbose
  | help | format | strict | maxDepth | maxSteps => rfl

theorem unlogged_of_look_verbose {word : String} {short : Bool} {attached : Option String}
    (h : look word = .ok (.option .verbose short attached)) :
    unlogged (word :: words) = unlogged words := by
  rw [unlogged.eq_def]
  simp only [if_neg (ne_terminator_of_look h), h]

theorem unlogged_of_look_attached {word value : String} {short : Bool}
    (h : look word = .ok (.option .logLevel short (some value))) :
    unlogged (word :: words) = unlogged words := by
  rw [unlogged.eq_def]
  simp only [if_neg (ne_terminator_of_look h), h]

theorem unlogged_of_look_following {word value : String} {short : Bool}
    (h : look word = .ok (.option .logLevel short none)) :
    unlogged (word :: value :: words) = unlogged words := by
  rw [unlogged.eq_def]
  simp only [if_neg (ne_terminator_of_look h), h]

/-! ### Options -/

theorem Options.assign_silent {switch : Switch} {value : String} {next : Options}
    (hlevel : switch ≠ .logLevel) (h : options.assign switch value = .ok next) :
    options.silent.assign switch value = .ok next.silent := by
  obtain ⟨misuse, hassign⟩ | ⟨-, format, hassign⟩ | ⟨-, n, -, hassign⟩ | ⟨-, n, -, hassign⟩ |
    ⟨hswitch, -⟩ := assign_cases switch value
  · cases (hassign options).symm.trans h
  · cases (hassign options).symm.trans h
    exact hassign options.silent
  · cases (hassign options).symm.trans h
    exact hassign options.silent
  · cases (hassign options).symm.trans h
    exact hassign options.silent
  · exact absurd hswitch hlevel

theorem Options.silent_of_assign {value : String} {next : Options}
    (h : options.assign .logLevel value = .ok next) : next.silent = options.silent := by
  obtain ⟨misuse, hassign⟩ | ⟨hswitch, -⟩ | ⟨hswitch, -⟩ | ⟨hswitch, -⟩ | ⟨-, severity, hassign⟩ :=
    assign_cases .logLevel value
  · cases (hassign options).symm.trans h
  · cases hswitch
  · cases hswitch
  · cases hswitch
  · cases (hassign options).symm.trans h
    rfl

theorem Options.leaveBlank_silent {switch : Switch} (hlevel : switch ≠ .logLevel) :
    options.silent.leaveBlank switch = (options.leaveBlank switch).silent := by
  cases switch with
  | logLevel => exact absurd rfl hlevel
  | help | format | strict | maxDepth | maxSteps | verbose => rfl

/-- Without the words about the journal, a command asks for the same run. -/
theorem Accepted.unlogged {filled : Bool} (h : Accepted words filled options last) :
    Accepted (unlogged words) filled options.silent last.silent := by
  induction h with
  | done => exact .done
  | file hword hrest ih =>
    rw [unlogged_of_look_argument hword]
    exact .file hword ih
  | fileEnded hword =>
    rw [unlogged_of_look_argument hword]
    exact .fileEnded hword
  | endedFile => exact .endedFile
  | ended => exact .ended
  | @blank word words filled short switch options last hword htakes hrest ih =>
    by_cases hlevel : switch = .logLevel
    · subst hlevel
      rw [unlogged_of_look_attached hword]
      exact ih
    · rw [unlogged_of_look_option hword hlevel (by rintro rfl; cases htakes)]
      refine .blank hword htakes ?_
      rw [Options.leaveBlank_silent hlevel]
      exact ih
  | @attached word value words filled short switch options next last hword htakes hvalue hassign
      hrest ih =>
    by_cases hlevel : switch = .logLevel
    · subst hlevel
      rw [unlogged_of_look_attached hword, ← Options.silent_of_assign hassign]
      exact ih
    · rw [unlogged_of_look_option hword hlevel (by rintro rfl; cases htakes)]
      exact .attached hword htakes hvalue (Options.assign_silent hlevel hassign) ih
  | @following word value words filled short switch options next last hword htakes hvalue hassign
      hrest ih =>
    by_cases hlevel : switch = .logLevel
    · subst hlevel
      rw [unlogged_of_look_following hword, ← Options.silent_of_assign hassign]
      exact ih
    · rw [unlogged_of_look_option hword hlevel (by rintro rfl; cases htakes),
        unlogged_of_look_argument hvalue]
      exact .following hword htakes hvalue (Options.assign_silent hlevel hassign) ih
  | flags hword htakes hflags hon hrest ih =>
    obtain ⟨rfl, rfl, rfl⟩ | ⟨rfl, rfl⟩ := turnOn_flags hword htakes hflags hon
    · rw [unlogged_of_look_option hword nofun nofun]
      exact .flags hword rfl hflags rfl ih
    · rw [unlogged_of_look_verbose hword]
      exact ih

/-! ### The whole journal -/

/-- Holds of the options that ask for the whole journal. -/
def Look.isVerbose : Look → Bool
  | option .verbose _ _ => true
  | _ => false

theorem Look.isVerbose_of_takesValue {switch : Switch} (h : switch.takesValue = true)
    (short : Bool) (attached : Option String) :
    (option switch short attached).isVerbose = false := by
  cases switch with
  | format | maxDepth | maxSteps | logLevel => rfl
  | help | strict | verbose => cases h

theorem Options.verbose_leaveBlank (options : Options) (switch : Switch) :
    (options.leaveBlank switch).verbose = options.verbose := by
  cases switch <;> rfl

theorem Options.verbose_of_assign {switch : Switch} {value : String} {next : Options}
    (h : options.assign switch value = .ok next) : next.verbose = options.verbose := by
  obtain ⟨format, rfl⟩ | ⟨n, -, rfl⟩ | ⟨n, -, rfl⟩ | ⟨severity, rfl⟩ := assign_eq_ok h <;> rfl

/-- The whole journal is asked for once any of the words does so. -/
theorem Accepted.verbose_eq {filled : Bool} {looked : List (String × Look)}
    (h : Accepted words filled options last) (hlooks : looks words = .ok looked) :
    last.verbose = (options.verbose || looked.any (·.2.isVerbose)) := by
  induction h generalizing looked with
  | done =>
    cases hlooks
    exact (Bool.or_false _).symm
  | file hword hrest ih =>
    obtain ⟨rest, rfl, hmore⟩ := exists_of_looks_of_look hword hlooks
    rw [ih hmore]
    rfl
  | fileEnded hword =>
    obtain ⟨rest, rfl, hmore⟩ := exists_of_looks_of_look hword hlooks
    cases hmore
    exact (Bool.or_false _).symm
  | endedFile | ended =>
    cases hlooks
    exact (Bool.or_false _).symm
  | @blank _ _ _ _ switch options _ hword htakes hrest ih =>
    obtain ⟨rest, rfl, hmore⟩ := exists_of_looks_of_look hword hlooks
    rw [ih hmore, List.any_cons, Look.isVerbose_of_takesValue htakes, Bool.false_or,
      options.verbose_leaveBlank]
  | attached hword htakes hvalue hassign hrest ih =>
    obtain ⟨rest, rfl, hmore⟩ := exists_of_looks_of_look hword hlooks
    rw [ih hmore, List.any_cons, Look.isVerbose_of_takesValue htakes, Bool.false_or,
      Options.verbose_of_assign hassign]
  | following hword htakes hvalue hassign hrest ih =>
    obtain ⟨rest, rfl, hmore⟩ := exists_of_looks_of_look hword hlooks
    obtain ⟨rest, rfl, hlast⟩ := exists_of_looks_of_look hvalue hmore
    rw [ih hlast, List.any_cons, Look.isVerbose_of_takesValue htakes, Bool.false_or,
      Options.verbose_of_assign hassign]
    rfl
  | flags hword htakes hflags hon hrest ih =>
    obtain ⟨rest, rfl, hmore⟩ := exists_of_looks_of_look hword hlooks
    rw [ih hmore, List.any_cons]
    obtain ⟨rfl, rfl, rfl⟩ | ⟨rfl, rfl⟩ := turnOn_flags hword htakes hflags hon
    · rfl
    · exact (Bool.or_true _).symm

/-! ### Reports -/

/-- The lines of a journal. -/
def linesOf (log : List Event) : String := String.join (log.map Event.line)

/-- The records of a journal that are shown from a severity on. -/
def shownFrom (severity : Severity) (log : List Event) : List Event :=
  log.filter (severity.rank ≤ ·.severity.rank)

/-- Two reports that differ in nothing but in what they show of a journal. The second shows the
given records; the first leaves out those of them that do not reach a severity. -/
structure Report.Quiets (quiet report : Report) (records : List Event) (severity : Severity) :
    Prop where
  code : quiet.code = report.code
  stdout : quiet.stdout = report.stdout
  blankLimits : quiet.blankLimits = report.blankLimits
  settings : ∃ settings, report.store = ⟨some settings⟩ ∧
    quiet.store = ⟨some { settings with logLevel := severity.name }⟩
  stderr : ∃ complaint,
    (report.code = 0 ∧ complaint = "" ∨
      report.code = 1 ∧ ∃ message, complaint = "Error: " ++ message ++ "\n") ∧
    report.stderr = linesOf records ++ complaint ∧
    quiet.stderr = linesOf (shownFrom severity records) ++ complaint

theorem shownLog_ofSeverity (severity : Severity) (log : List Event) :
    shownLog (.ofSeverity severity) log = linesOf (shownFrom severity log) := rfl

theorem perform_silent (options : Options) (read : String → Except SourceFile.Failure String) :
    perform options.silent read = perform options read := rfl

/-! ### Two commands -/

theorem parse_unlogged (h : parse words = .ok (.run options)) :
    parse (unlogged words) = .ok (.run options.silent) :=
  parse_eq_run_iff.mpr (parse_eq_run_iff.mp h).unlogged

theorem shownFrom_shownFrom {severity severity' : Severity} (h : severity.rank ≤ severity'.rank)
    (log : List Event) :
    shownFrom severity' (shownFrom severity log) = shownFrom severity' log := by
  rw [shownFrom, shownFrom, List.filter_filter]
  refine List.filter_congr fun event _ => ?_
  rw [← Bool.decide_and]
  exact decide_eq_decide.mpr (and_iff_left_of_imp (Nat.le_trans h))

/-- What a report says after the journal. -/
def Performance.lastWords (performance : Performance) : String :=
  match performance.result with
  | .ok _ => ""
  | .error complaint => "Error: " ++ complaint.message ++ "\n"

theorem stderr_reportRun (store : Store) (options : Options) (performance : Performance) :
    (reportRun store options performance).stderr =
      linesOf (shownFrom options.severity performance.log) ++ performance.lastWords := by
  obtain ⟨log, complaint | tree⟩ := performance
  · simp only [reportRun, Performance.lastWords, shownLog_ofSeverity, String.append_assoc]
  · exact String.append_empty.symm

/-- Under options that show less of the journal, the same run is reported on more quietly. -/
theorem quiets_reportRun (store : Store) {options options' : Options}
    (hsame : options.silent = options'.silent)
    (hrank : options.severity.rank ≤ options'.severity.rank) (performance : Performance) :
    (reportRun store options' performance).Quiets (reportRun store options performance)
      (shownFrom options.severity performance.log) options'.severity := by
  have hstderr := stderr_reportRun store options performance
  have hstderr' := stderr_reportRun store options' performance
  rw [← shownFrom_shownFrom hrank] at hstderr'
  obtain ⟨file, format, strict, maxDepth, maxSteps, logLevel, verbose⟩ := options
  obtain ⟨file', format', strict', maxDepth', maxSteps', logLevel', verbose'⟩ := options'
  cases hsame
  obtain ⟨log, complaint | tree⟩ := performance
  · exact ⟨rfl, rfl, rfl, ⟨_, rfl, rfl⟩, _, .inr ⟨rfl, _, rfl⟩, hstderr, hstderr'⟩
  · exact ⟨rfl, rfl, rfl, ⟨_, rfl, rfl⟩, _, .inl ⟨rfl, rfl⟩, hstderr, hstderr'⟩

/-- **What is shown of the journal changes nothing else.** Two commands that are the same without
the words about the journal, and neither of which leaves a severity blank that it needs, break down
over the same or are reported on alike: the one that asks for graver records shows those of the
other that are grave enough, in the same order, and nothing else differs. All records are shown once
any of the words asks for that. -/
theorem run_quiets (store : Store) (read : String → Except SourceFile.Failure String)
    {words words' : List String} {options options' : Options}
    (hparse : parse words = .ok (.run options)) (hparse' : parse words' = .ok (.run options'))
    (hsame : unlogged words = unlogged words')
    (hlevel : options.logLevel.isBlank = true → options.verbose = true)
    (hlevel' : options'.logLevel.isBlank = true → options'.verbose = true)
    (hrank : options.severity.rank ≤ options'.severity.rank) :
    ((∃ breakdown, run store words read = .error breakdown ∧
        run store words' read = .error breakdown) ∨
      ∃ performance report quiet, perform options read = .ok performance ∧
        run store words read = .ok report ∧ run store words' read = .ok quiet ∧
        quiet.Quiets report (shownFrom options.severity performance.log) options'.severity) ∧
    ∃ looked, looks words = .ok looked ∧
      (looked.any (·.2.isVerbose) = true → options.severity = .debug) := by
  constructor
  · have hsilent : options.silent = options'.silent := by
      have hunlogged := parse_unlogged hparse
      rw [hsame, parse_unlogged hparse'] at hunlogged
      exact (Request.run.inj (Except.ok.inj hunlogged)).symm
    rw [run_of_severity store hparse hlevel, run_of_severity store hparse' hlevel',
      ← perform_silent options', ← hsilent, perform_silent]
    cases hperform : perform options read with
    | error breakdown => exact .inl ⟨breakdown, rfl, rfl⟩
    | ok performance =>
      exact .inr ⟨performance, _, _, rfl, rfl, rfl, quiets_reportRun store hsilent hrank _⟩
  · have haccepted := parse_eq_run_iff.mp hparse
    obtain ⟨looked, hlooks, -⟩ := haccepted.exists_looks
    refine ⟨looked, hlooks, fun hany => ?_⟩
    rw [Options.severity, haccepted.verbose_eq hlooks, hany, Bool.or_true, if_pos rfl]

/-- Of five records about the program `(f 1`, all but the warning are left out. -/
theorem run_quiets_unclosed :
    let words := ["-v", "p.lisp", "--log-level=INFO"]
    let words' := ["p.lisp", "--log-level=WARNING"]
    let options : Options := { file := some "p.lisp", logLevel := .value .info, verbose := true }
    let options' : Options := { file := some "p.lisp", logLevel := .value .warning }
    let read : String → Except SourceFile.Failure String := fun _ => .ok "(f 1"
    parse words = .ok (.run options) ∧ parse words' = .ok (.run options') ∧
      unlogged words = unlogged words' ∧
      (options.logLevel.isBlank = true → options.verbose = true) ∧
      (options'.logLevel.isBlank = true → options'.verbose = true) ∧
      options.severity.rank ≤ options'.severity.rank ∧
      ∃ report quiet, run .empty words read = .ok report ∧ run .empty words' read = .ok quiet ∧
        quiet.Quiets report [.scanned 3 6, .unclosed 1, .read 1, .unknownOperation (some "f"),
          .finished 1 2] .warning := by
  intro words words' options options' read
  have hfile : look "p.lisp" = .ok .argument := by rfl
  have hverbose : look "-v" = .ok (.option .verbose true none) := by rfl
  have hinfo : look "--log-level=INFO" = .ok (.option .logLevel false (some "INFO")) := by rfl
  have hwarning : look "--log-level=WARNING" = .ok (.option .logLevel false (some "WARNING")) := by
    rfl
  have hparse : parse words = .ok (.run options) := parse_eq_run_iff.mpr
    (.flags hverbose rfl rfl rfl (.file hfile (.attached hinfo rfl (by decide) rfl .done)))
  have hparse' : parse words' = .ok (.run options') := parse_eq_run_iff.mpr
    (.file hfile (.attached hwarning rfl (by decide) rfl .done))
  have hsame : unlogged words = unlogged words' := by
    rw [unlogged_of_look_verbose hverbose, unlogged_of_look_argument hfile,
      unlogged_of_look_attached hinfo, unlogged_of_look_argument hfile,
      unlogged_of_look_attached hwarning]
  have hlevel : options.logLevel.isBlank = true → options.verbose = true := fun _ => rfl
  have hlevel' : options'.logLevel.isBlank = true → options'.verbose = true :=
    fun hblank => absurd hblank Bool.false_ne_true
  have hscan : Token.Scan.ofProgram "(f 1" =
      ⟨.ok [.opening none, .word (some "f"), .number 1], [.scanned 3 6]⟩ := by rfl
  have hread : Tree.read [.opening none, .word (some "f"), .number 1] =
      ⟨.ok (.list [.list [.word (some "f"), .number 1]]), [], [.unclosed 1, .read 1]⟩ := by rfl
  have hperform : perform options read = .ok ⟨[.scanned 3 6, .unclosed 1, .read 1,
      .unknownOperation (some "f"), .finished 1 2], .ok (.list [])⟩ := by
    have hnul : '\x00' ∉ "p.lisp".toList := by decide
    simp only [perform, options, if_neg hnul, read, performText, hscan, hread]
    rfl
  obtain ⟨⟨breakdown, hbreaks, -⟩ | ⟨performance, report, quiet, hperformance, hrun, hrun',
    hquiets⟩, -⟩ := run_quiets .empty read hparse hparse' hsame hlevel hlevel' (by decide)
  · rw [run_of_severity .empty hparse hlevel, hperform] at hbreaks
    cases hbreaks
  · cases hperform.symm.trans hperformance
    exact ⟨hparse, hparse', hsame, hlevel, hlevel', by decide, report, quiet, hrun, hrun', hquiets⟩

/-- A severity left blank gets in the way of a report that a command would make without it. -/
theorem run_unlogged_blankSeverity :
    let words := ["p.lisp"]
    let words' := ["p.lisp", "--log-level=--"]
    let options : Options := { file := some "p.lisp" }
    let options' : Options := { file := some "p.lisp", logLevel := .blank }
    let read : String → Except SourceFile.Failure String := fun _ => .ok "(1"
    parse words = .ok (.run options) ∧ parse words' = .ok (.run options') ∧
      unlogged words = unlogged words' ∧
      (∃ report, run .empty words read = .ok report ∧ report.code = 0) ∧
      ¬∃ report, run .empty words' read = .ok report := by
  intro words words' options options' read
  have hfile : look "p.lisp" = .ok .argument := by rfl
  have hblank : look "--log-level=--" = .ok (.option .logLevel false (some "--")) := by rfl
  have hparse : parse words = .ok (.run options) := parse_eq_run_iff.mpr (.file hfile .done)
  have hparse' : parse words' = .ok (.run options') :=
    parse_eq_run_iff.mpr (.file hfile (.blank hblank rfl .done))
  have hsame : unlogged words = unlogged words' := by
    rw [unlogged_of_look_argument hfile, unlogged_of_look_argument hfile,
      unlogged_of_look_attached hblank]
  have hscan : (Token.Scan.ofProgram "(1").outcome = .ok [.opening none, .number 1] := by rfl
  have hread : Tree.read [.opening none, .number 1] =
      ⟨.ok (.list [.list [.number 1]]), [], [.unclosed 1, .read 1]⟩ := by rfl
  have hperform : ∃ log, perform options read = .ok ⟨log, .ok (.list [.list [.number 1]])⟩ := by
    have hnul : '\x00' ∉ "p.lisp".toList := by decide
    simp only [perform, options, if_neg hnul, read, performText, hscan, hread]
    exact ⟨_, rfl⟩
  refine ⟨hparse, hparse', hsame, ?_, ?_⟩
  · obtain ⟨log, hperform⟩ := hperform
    rw [run_of_severity .empty hparse fun hblank => absurd hblank Bool.false_ne_true, hperform]
    exact ⟨_, rfl, rfl⟩
  · rintro ⟨report, hreport⟩
    rw [run, hparse'] at hreport
    cases hreport

end PlusLisp.CommandLine
