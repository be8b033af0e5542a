import PlusLisp.Proofs.CommandLine.Agreement
import PlusLisp.Proofs.Evaluation.Shape

/-!
How commands end. A command that does not ask for help shows a result on a line, or says on the last
line what is wrong, or rejects its words. It breaks down only over what a word has left blank, and
never over a fault that it does not complain of: a token or a tree of an unknown kind, or what
cannot be worded.

Main statement: `run_ends`.
-/

namespace PlusLisp

/-! ### Results on a line -/

/-- Holds of the texts of printable ASCII characters. -/
def Text.IsAscii (text : String) : Prop := ∀ c ∈ text.toList, ' ' ≤ c ∧ c ≤ '~'

instance (text : String) : Decidable (Text.IsAscii text) := List.decidableBAll _ _

namespace Text.IsAscii

theorem append {text other : String} (h : IsAscii text) (h' : IsAscii other) :
    IsAscii (text ++ other) := by
  intro c hmem
  rw [String.toList_append, List.mem_append] at hmem
  exact hmem.elim (h c) (h' c)

theorem intercalate {separator : String} (hseparator : IsAscii separator) {texts : List String}
    (h : ∀ text ∈ texts, IsAscii text) : IsAscii (separator.intercalate texts) := by
  induction texts with
  | nil => exact List.forall_mem_nil _
  | cons text texts ih =>
    rw [List.forall_mem_cons] at h
    cases texts with
    | nil =>
      rw [String.intercalate_singleton]
      exact h.1
    | cons next texts =>
      rw [String.intercalate_cons_cons]
      exact (h.1.append hseparator).append (ih h.2)

theorem intCast (n : Int) : IsAscii (toString n) := by
  intro c hmem
  by_contra hout
  refine notMem_intCast ?_ ?_ n hmem
  · rw [← Bool.not_eq_true]
    intro hdigit
    rw [Char.isDigit, Bool.and_eq_true, decide_eq_true_eq, decide_eq_true_eq] at hdigit
    exact hout ⟨Char.le_trans (by decide) hdigit.1, Char.le_trans hdigit.2 (by decide)⟩
  · rintro rfl
    exact hout (by decide)

end Text.IsAscii

namespace Tree.IsData

variable {value : Tree}

theorem isAscii_debugText (h : value.IsData) : Text.IsAscii value.debugText := by
  induction h with
  | @number n _ =>
    rw [debugText, Tree.number, debugTextWith, Text.numberForm]
    exact .append (.append (by decide) (.intCast n)) (by decide)
  | @list members _ ih =>
    have hmembers : Text.IsAscii
        (", ".intercalate (members.map (debugTextWith Text.isPrintable))) := by
      refine .intercalate (by decide) fun text hmem => ?_
      obtain ⟨member, hmember, rfl⟩ := List.mem_map.mp hmem
      exact ih member hmember
    rw [debugText, Tree.list, debugTextWith, Text.sequenceForm]
    exact .append (.append (by decide) (.append (.append (by decide) hmembers)
      (by decide))) (by decide)

theorem isAscii_sourceText (h : value.IsData) : Text.IsAscii value.sourceText := by
  induction h with
  | @number n _ =>
    rw [Tree.number, sourceText]
    exact .intCast n
  | @list members _ ih =>
    have hmembers : Text.IsAscii (" ".intercalate (members.map sourceText)) := by
      refine .intercalate (by decide) fun text hmem => ?_
      obtain ⟨member, hmember, rfl⟩ := List.mem_map.mp hmem
      exact ih member hmember
    rw [Tree.list, sourceText]
    exact .append (.append (by decide) hmembers) (by decide)

end Tree.IsData

theorem Tree.BuiltFrom.isPlain {tree : Tree} (h : tree.BuiltFrom Token.IsReadable) :
    tree.IsPlain := by
  induction h with
  | number hrange => exact .number hrange
  | word => exact .word
  | list _ ih => exact .list ih

/-- What comes of a program text is a list of data. -/
theorem Program.isData_of_run {limits : Limits} {text : String} {value : Tree}
    (h : (run limits text).outcome = .ok value) :
    ∃ values, value = .list values ∧ value.IsData := by
  obtain ⟨tree, htree, hvalue⟩ := run_eq_ok_iff.mp h
  obtain ⟨forms, rfl, hforms⟩ := isCanonical_of_tree htree
  have hbuilt := (Tree.BuiltFrom.list hforms).mono fun token => Token.IsScanned.isReadable
  have hcourse := (runTree_eq_ok_iff.mp hvalue).1
  obtain ⟨values, rfl⟩ := Entry.exists_list_of_program hcourse
  obtain ⟨text, hnull⟩ | hdata := hbuilt.isPlain.isResult_of_course hcourse
  · cases hnull
  · exact ⟨values, rfl, hdata⟩

namespace CommandLine

open Text (FitsOnLine EndsLine)

variable {options : Options} {words : List String} {text : String}

/-- A list of data is printed on a line. -/
theorem Format.print_list (format : Format) {values : List Tree} (h : (Tree.list values).IsData) :
    format.print (.list values) ≠ "" ∧ Text.IsAscii (format.print (.list values)) := by
  have hnonempty : ∀ {text other : String}, text ≠ "" → text ++ other ≠ "" := by
    intro text other htext hempty
    exact htext (String.append_eq_empty_iff.mp hempty).1
  cases format with
  | debug =>
    refine ⟨?_, h.isAscii_debugText⟩
    rw [print, Tree.debugText, Tree.list, Tree.debugTextWith]
    exact hnonempty (hnonempty (by decide))
  | source =>
    refine ⟨?_, h.isAscii_sourceText⟩
    rw [print, Tree.list, Tree.sourceText]
    exact hnonempty (hnonempty (by decide))

/-! ### What words make of options -/

/-- Holds of what a run with the given options breaks down over: what they leave blank. -/
def Options.Lacks (options : Options) : Breakdown → Prop
  | .blankSeverity => options.logLevel = .blank ∧ options.verbose = false
  | .blankDepth => options.maxDepth = .blank
  | .blankSteps => options.maxSteps = .blank
  | .nulInPath | .textAmongNodes | .unknownKind _ => False

/-- The file of a command is one of its words. -/
theorem file_mem (h : parse words = .ok (.run options)) : ∀ path ∈ options.file, path ∈ words := by
  refine (parse_eq_run_iff.mp h).keeps (P := fun options => ∀ path ∈ options.file, path ∈ words)
    (fun _ => id) ?_ nofun
  intro options next hchange hoptions
  cases hchange with
  | file hword =>
    rintro path ⟨⟩
    exact hword
  | @blank _ _ switch => cases switch <;> exact hoptions
  | assign hassign =>
    obtain ⟨format, rfl⟩ | ⟨n, -, rfl⟩ | ⟨n, -, rfl⟩ | ⟨severity, rfl⟩ :=
      Options.assign_eq_ok hassign <;> exact hoptions
  | strict | verbose => exact hoptions

/-- What is left blank is left blank by a word. -/
theorem exists_of_lacks (h : parse words = .ok (.run options)) {breakdown : Breakdown}
    (hlacks : options.Lacks breakdown) : ∃ word ∈ words, ∃ front, word = front ++ "=--" := by
  have hblank : options.maxDepth = .blank ∨ options.maxSteps = .blank ∨
      options.logLevel = .blank := by
    cases breakdown with
    | blankSeverity => exact .inr (.inr hlacks.1)
    | blankDepth => exact .inl hlacks
    | blankSteps => exact .inr (.inl hlacks)
    | nulInPath | textAmongNodes | unknownKind => exact absurd hlacks id
  refine (parse_eq_run_iff.mp h).keeps (P := fun options => options.maxDepth = .blank ∨
    options.maxSteps = .blank ∨ options.logLevel = .blank →
      ∃ word ∈ words, ∃ front, word = front ++ "=--") (fun _ => id) ?_ (by simp) hblank
  intro options next hchange hoptions hnext
  cases hchange with
  | blank hword hblank => exact ⟨_, hword, _, hblank⟩
  | assign hassign =>
    obtain ⟨format, rfl⟩ | ⟨n, -, rfl⟩ | ⟨n, -, rfl⟩ | ⟨severity, rfl⟩ :=
      Options.assign_eq_ok hassign
    · exact hoptions hnext
    · exact hoptions (.inr (hnext.resolve_left nofun))
    · exact hoptions (hnext.imp_right fun h => .inr (h.resolve_left nofun))
    · exact hoptions (hnext.imp_right fun h => .inl (h.resolve_right nofun))
  | file | strict | verbose => exact hoptions hnext

/-! ### What comes of a run -/

theorem Entry.eq_blank {α : Type} {entry : Entry α} (h : entry.isBlank = true) :
    entry = .blank := by
  cases entry with
  | blank => rfl
  | unset | value => cases h

theorem lacks_of_evaluationBreakdown? {breakdown : Breakdown}
    (h : options.evaluationBreakdown? = some breakdown) : options.Lacks breakdown := by
  unfold Options.evaluationBreakdown? at h
  split at h
  · next hdepth =>
    cases h
    exact Entry.eq_blank hdepth
  · split at h
    · next hsteps =>
      cases h
      exact Entry.eq_blank (Bool.and_eq_true_iff.mp hsteps).1
    · cases h

/-- A run of a tree breaks down over a limit, or comes to what the limits of the options let it. -/
theorem performTree_cases (hparse : parse words = .ok (.run options))
    (hlength : Text.IsWritable (text.length + 1 : Nat)) (log : List Event) {tree : Tree}
    (htree : Program.tree text = .ok tree) :
    (∃ breakdown, performTree options log tree = .error breakdown ∧ options.Lacks breakdown) ∨
      ∃ log', performTree options log tree =
        .ok ⟨log', (Program.run options.limits text).outcome.mapError .stopped⟩ := by
  cases hbreaks : options.evaluationBreakdown? with
  | some breakdown =>
    exact .inl ⟨breakdown, by rw [performTree, hbreaks], lacks_of_evaluationBreakdown? hbreaks⟩
  | none =>
    refine .inr ⟨log ++ (Evaluator.runProgram ⟨options.limits, 0⟩ tree).log, ?_⟩
    rw [performTree, hbreaks, ← conclude_run hparse hlength,
      (Program.run_of_tree htree options.limits).1]
    rfl

/-- A run of a program text breaks down over a limit, or an audit rejects the program, or the run
comes to what the limits of the options let it. -/
theorem performText_cases (hparse : parse words = .ok (.run options))
    (hlength : Text.IsWritable (text.length + 1 : Nat)) :
    (∃ breakdown, performText options text = .error breakdown ∧ options.Lacks breakdown) ∨
      ∃ log result, performText options text = .ok ⟨log, result⟩ ∧
        ((∃ findings, result = .error (.rejected findings)) ∨
          result = (Program.run options.limits text).outcome.mapError .stopped) := by
  cases hscan : (Token.Scan.ofProgram text).outcome with
  | error fault =>
    have hrun := Program.run_of_scan_error hscan options.limits
    refine .inr ⟨(Token.Scan.ofProgram text).log, _, ?_, .inr rfl⟩
    rw [← conclude_run hparse hlength, hrun, performText, hscan]
  | ok tokens =>
    obtain ⟨tree, hread, htree, -⟩ := Program.exists_tree_of_scan hscan
    simp only [performText, hscan, hread]
    generalize (if options.strict then Audit.program tokens tree options.settings.bounds
      else []) = findings
    cases findings with
    | nil =>
      obtain hbreaks | ⟨log, hlog⟩ := performTree_cases hparse hlength
        ((Token.Scan.ofProgram text).log ++ (Tree.read tokens).log) htree
      · exact .inl hbreaks
      · exact .inr ⟨log, _, hlog, .inr rfl⟩
    | cons finding findings => exact .inr ⟨_, _, rfl, .inl ⟨_, rfl⟩⟩

/-- A run with a file whose path can be one breaks down over a limit, or comes to a result that is a
list of data, or to a complaint that fits on a line. -/
theorem perform_cases (hparse : parse words = .ok (.run options))
    {read : String → Except SourceFile.Failure String} (hread : ReadsShort read)
    (hnul : ∀ path ∈ options.file, '\x00' ∉ path.toList) :
    (∃ breakdown, perform options read = .error breakdown ∧ options.Lacks breakdown) ∨
      ∃ log result, perform options read = .ok ⟨log, result⟩ ∧
        (∀ value, result = .ok value → ∃ values, value = .list values ∧ value.IsData) ∧
        ∀ complaint, result = .error complaint → FitsOnLine complaint.message := by
  unfold perform
  cases hfile : options.file with
  | none =>
    refine .inr ⟨_, _, rfl, nofun, ?_⟩
    rintro _ ⟨⟩
    exact (by decide +kernel : FitsOnLine "No file provided.")
  | some path =>
    simp only [if_neg (hnul path hfile)]
    cases htext : read path with
    | error failure =>
      refine .inr ⟨_, _, rfl, nofun, ?_⟩
      rintro _ ⟨⟩
      exact (by decide +kernel : FitsOnLine "Failed to read the file.")
    | ok text =>
      obtain hbreaks | ⟨log, result, hperform, hresult⟩ :=
        performText_cases hparse (hread path text htext)
      · exact .inl hbreaks
      · refine .inr ⟨log, result, hperform, ?_⟩
        obtain ⟨findings, rfl⟩ | rfl := hresult
        · refine ⟨nofun, ?_⟩
          rintro _ ⟨⟩
          refine .intercalate (by decide +kernel) fun message hmem => ?_
          obtain ⟨finding, -, rfl⟩ := List.mem_map.mp hmem
          exact finding.fitsOnLine
        · cases hrun : (Program.run options.limits text).outcome with
          | ok value =>
            refine ⟨?_, nofun⟩
            rintro _ ⟨⟩
            exact Program.isData_of_run hrun
          | error fault =>
            refine ⟨nofun, ?_⟩
            rintro _ ⟨⟩
            exact (Program.isPlain_of_run hrun).fitsOnLine

/-- A run that has come to its end complains of what it is meant to complain of. -/
theorem complainsOf_of_conclude {outcome : Except Fault Tree} {fault : Fault} {log log' : List Event}
    (h : conclude log outcome = .ok ⟨log', .error (.stopped fault)⟩) :
    complainsOf fault.family = true := by
  unfold conclude at h
  split at h
  · cases h
  · split at h
    · next hfamily =>
      cases h
      exact hfamily
    · cases h

/-- Whatever the text, a run complains of nothing but a run of digits that stands for too much, a sum
out of range or without its operands, or a limit. -/
theorem family_of_performText {fault : Fault} {log : List Event}
    (h : performText options text = .ok ⟨log, .error (.stopped fault)⟩) :
    fault.family ∈ [.literal, .range, .operands, .limit] := by
  have hcomplains : complainsOf fault.family = true := by
    cases hscan : (Token.Scan.ofProgram text).outcome with
    | error fault =>
      rw [performText, hscan] at h
      exact complainsOf_of_conclude h
    | ok tokens =>
      cases hread : (Tree.read tokens).outcome with
      | error fault =>
        simp only [performText, hscan, hread] at h
        exact complainsOf_of_conclude h
      | ok tree =>
        simp only [performText, hscan, hread] at h
        generalize (if options.strict then Audit.program tokens tree options.settings.bounds
          else []) = findings at h
        cases findings with
        | nil =>
          simp only [List.isEmpty_nil, if_true, performTree] at h
          split at h
          · cases h
          · exact complainsOf_of_conclude h
        | cons finding findings => cases h
  cases hfamily : fault.family with
  | literal | range | operands | limit => simp
  | kind | numeral =>
    rw [hfamily] at hcomplains
    cases hcomplains

/-! ### Endings -/

/-- The ways in which commands end. -/
inductive Ending where
  | result
  | complaint
  | misuse
  deriving DecidableEq, Repr

/-- The exit code of an ending. -/
def Ending.code : Ending → Nat
  | result => 0
  | complaint => 1
  | misuse => 2

/-- Holds of the reports of which the settings are those that the words of a command describe. -/
def Report.IsConfiguredBy (report : Report) (words : List String) : Prop :=
  ∃ options, parse words = .ok (.run options) ∧
    report.store.held = some ⟨⟨options.maxDepth.value?, options.maxSteps.value?⟩, ⟨200, 100000⟩,
      if options.verbose then "DEBUG" else (options.logLevel.value?.getD .warning).name⟩ ∧
    report.blankLimits = options.blankLimits

/-- What a report shows when a command ends in a way: one line of printable characters, or nothing
but a last line that says what is wrong, each under the settings that the words describe; or nothing
is shown, and the settings are left as they were, because the words are at fault. -/
def Report.EndsIn (report : Report) (store : Store) (words : List String) (ending : Ending) :
    Prop :=
  report.code = ending.code ∧
    match ending with
    | .result =>
      (∃ line, line ≠ "" ∧ Text.IsAscii line ∧ report.stdout = line ++ "\n") ∧
        report.IsConfiguredBy words
    | .complaint =>
      report.stdout = "" ∧
        (∃ before message, EndsLine before ∧ FitsOnLine message ∧
          report.stderr = before ++ "Error: " ++ message ++ "\n") ∧
        report.IsConfiguredBy words
    | .misuse =>
      report.stdout = "" ∧ report.store = store ∧ ∃ misuse, parse words = .error misuse

/-- The code tells how a command has ended. -/
theorem Report.EndsIn.existsUnique {report : Report} {store : Store} {ending : Ending}
    (h : report.EndsIn store words ending) : ∃! ending, report.EndsIn store words ending := by
  refine ⟨ending, h, fun other hother => ?_⟩
  have hcode : other.code = ending.code := hother.1.symm.trans h.1
  cases other <;> cases ending <;> cases hcode <;> rfl

theorem isConfiguredBy_reportRun (store : Store) (hparse : parse words = .ok (.run options))
    (performance : Performance) : (reportRun store options performance).IsConfiguredBy words := by
  refine ⟨options, hparse, ?_⟩
  obtain ⟨log, complaint | tree⟩ := performance <;> cases hverbose : options.verbose <;>
    simp [reportRun, Store.set, Options.settings, Options.severity, Options.limits, hverbose,
      Severity.name]

/-- A run that does not break down ends with its result or with a complaint. -/
theorem exists_endsIn_reportRun (store : Store) (hparse : parse words = .ok (.run options))
    {log : List Event} {result : Except Complaint Tree}
    (hvalue : ∀ value, result = .ok value → ∃ values, value = .list values ∧ value.IsData)
    (hcomplaint : ∀ complaint, result = .error complaint → FitsOnLine complaint.message) :
    ∃ ending, (reportRun store options ⟨log, result⟩).EndsIn store words ending := by
  have hconfigured := isConfiguredBy_reportRun store hparse ⟨log, result⟩
  cases result with
  | ok value =>
    obtain ⟨values, rfl, hdata⟩ := hvalue value rfl
    obtain ⟨hnonempty, hascii⟩ := options.format.print_list hdata
    exact ⟨.result, rfl, ⟨_, hnonempty, hascii, rfl⟩, hconfigured⟩
  | error complaint =>
    exact ⟨.complaint, rfl, rfl, ⟨_, _, endsLine_shownLog _ log, hcomplaint complaint rfl, rfl⟩,
      hconfigured⟩

/-- A command that does not ask for help breaks down over what it has left blank, or it ends in one
of the three ways. -/
theorem run_cases (store : Store) {read : String → Except SourceFile.Failure String}
    (hread : ReadsShort read) (hhelp : parse words ≠ .ok .help)
    (hnul : ∀ word ∈ words, '\x00' ∉ word.toList) :
    (∃ report ending, run store words read = .ok report ∧ report.EndsIn store words ending) ∨
      ∃ options breakdown, parse words = .ok (.run options) ∧
        run store words read = .error breakdown ∧ options.Lacks breakdown := by
  cases hparse : parse words with
  | error misuse =>
    refine .inl ⟨reportMisuse store misuse, .misuse, ?_, rfl, rfl, rfl, misuse, hparse⟩
    rw [run, hparse]
  | ok request =>
    cases request with
    | help => exact absurd hparse hhelp
    | run options =>
      by_cases hlevel : options.logLevel.isBlank = true → options.verbose = true
      · rw [run_of_severity store hparse hlevel]
        obtain ⟨breakdown, hbreaks, hlacks⟩ | ⟨log, result, hperform, hvalue, hcomplaint⟩ :=
          perform_cases hparse hread fun path hpath => hnul path (file_mem hparse path hpath)
        · exact .inr ⟨options, breakdown, rfl, by rw [hbreaks]; rfl, hlacks⟩
        · obtain ⟨ending, hending⟩ := exists_endsIn_reportRun store hparse hvalue hcomplaint
          exact .inl ⟨_, ending, by rw [hperform]; rfl, hending⟩
      · rw [Classical.not_imp, Bool.not_eq_true] at hlevel
        refine .inr ⟨options, .blankSeverity, rfl, ?_, Entry.eq_blank hlevel.1, hlevel.2⟩
        rw [run, hparse]
        exact if_pos (by rw [hlevel.1, hlevel.2]; rfl)

/-- **Commands end in one of three ways.** Files may be read in any way by which no text is too long
for its length to be written, as none in a folder is. A command that does not ask for help, and that
has no word with the character NUL in it, ends in exactly one of the three ways, unless it breaks
down over a value that one of its words has left blank. In particular it never breaks down over a
fault that it does not complain of. It complains of faults of four families only. -/
theorem run_ends (store : Store) {read : String → Except SourceFile.Failure String}
    (hread : ReadsShort read) (hhelp : parse words ≠ .ok .help)
    (hnul : ∀ word ∈ words, '\x00' ∉ word.toList) :
    ((∃ report, run store words read = .ok report ∧
        ∃! ending, report.EndsIn store words ending) ∨
      ∃ options breakdown, parse words = .ok (.run options) ∧
        run store words read = .error breakdown ∧ options.Lacks breakdown ∧
        ∃ word ∈ words, ∃ front, word = front ++ "=--") ∧
    (∀ fault, run store words read ≠ .error (.unknownKind fault)) ∧
    ∀ options text fault log, performText options text = .ok ⟨log, .error (.stopped fault)⟩ →
      fault.family ∈ [.literal, .range, .operands, .limit] := by
  have hcases := run_cases store hread hhelp hnul
  refine ⟨?_, ?_, fun options text fault log => family_of_performText⟩
  · obtain ⟨report, ending, hrun, hending⟩ | ⟨options, breakdown, hparse, hbreaks, hlacks⟩ := hcases
    · exact .inl ⟨report, hrun, hending.existsUnique⟩
    · exact .inr ⟨options, breakdown, hparse, hbreaks, hlacks, exists_of_lacks hparse hlacks⟩
  · intro fault hunknown
    obtain ⟨report, ending, hrun, -⟩ | ⟨options, breakdown, -, hbreaks, hlacks⟩ := hcases
    · cases hrun.symm.trans hunknown
    · cases hbreaks.symm.trans hunknown
      exact hlacks

/-- Two steps are too few for two numbers in a file, which is said. -/
theorem run_ends_stopped :
    let words := ["--max-steps=2", "p.lisp"]
    let folder : Folder := ⟨[("p.lisp", "1 2".toUTF8.data.toList)]⟩
    ReadsShort folder.read ∧ parse words ≠ .ok .help ∧ (∀ word ∈ words, '\x00' ∉ word.toList) ∧
      ∃ report, run .empty words folder.read = .ok report ∧
        report.EndsIn .empty words .complaint ∧ ∃! ending, report.EndsIn .empty words ending := by
  intro words folder
  have hfile : look "p.lisp" = .ok .argument := by rfl
  have hsteps : look "--max-steps=2" = .ok (.option .maxSteps false (some "2")) := by rfl
  have hparse : parse words = .ok (.run { file := some "p.lisp", maxSteps := .value 2 }) :=
    parse_eq_run_iff.mpr (.attached hsteps rfl (by decide) rfl (.file hfile .done))
  have hhelp : parse words ≠ .ok .help := by
    intro hhelp
    cases hparse.symm.trans hhelp
  have hnul : ∀ word ∈ words, '\x00' ∉ word.toList := by decide
  have hname : Folder.IsFileName "p.lisp" := by constructor <;> decide +kernel
  have hcontent : folder.HasText "p.lisp" "1 2" := hname.hasText_single (by decide +kernel)
  have hrun : ∃ report, run .empty words folder.read = .ok report ∧ report.code = 1 := by
    have hstopped : (Program.run ⟨none, some 2⟩
        (String.ofList (Text.unifyLineBreaks "1 2".toList))).outcome =
          .error (.stepsExceeded 3 2) := by decide +kernel
    rw [run_of_file .empty _ hparse rfl hcontent fun hblank => absurd hblank Bool.false_ne_true,
      performText_eq hparse rfl rfl (folder.readsShort _ _ hcontent.read_eq)]
    simp only [Options.limits, Entry.value?, hstopped]
    exact ⟨_, rfl, rfl⟩
  obtain ⟨report, hreport, hcode⟩ := hrun
  obtain ⟨⟨report', hreport', hunique⟩ | ⟨_, _, -, hbreaks, -⟩, -, -⟩ :=
    run_ends .empty folder.readsShort hhelp hnul
  · cases hreport.symm.trans hreport'
    obtain ⟨ending, hending, -⟩ := id hunique
    cases ending with
    | complaint => exact ⟨folder.readsShort, hhelp, hnul, report, hreport, hending, hunique⟩
    | result | misuse => cases hcode.symm.trans hending.1
  · cases hreport.symm.trans hbreaks

/-- A limit left blank gets in the way of every ending, even of a program that needs no limit. -/
theorem run_blankDepth :
    let words := ["--max-depth=--", "p.lisp"]
    let folder : Folder := ⟨[("p.lisp", "1".toUTF8.data.toList)]⟩
    parse words ≠ .ok .help ∧ (∀ word ∈ words, '\x00' ∉ word.toList) ∧
      folder.HasText "p.lisp" "1" ∧ run .empty words folder.read = .error .blankDepth ∧
      ¬∃ report ending, run .empty words folder.read = .ok report ∧
        report.EndsIn .empty words ending := by
  intro words folder
  have hfile : look "p.lisp" = .ok .argument := by rfl
  have hblank : look "--max-depth=--" = .ok (.option .maxDepth false (some "--")) := by rfl
  have hparse : parse words = .ok (.run { file := some "p.lisp", maxDepth := .blank }) :=
    parse_eq_run_iff.mpr (.blank hblank rfl (.file hfile .done))
  have hhelp : parse words ≠ .ok .help := by
    intro hhelp
    cases hparse.symm.trans hhelp
  have hname : Folder.IsFileName "p.lisp" := by constructor <;> decide +kernel
  have hcontent : folder.HasText "p.lisp" "1" := hname.hasText_single (by decide +kernel)
  have hbreaks : run .empty words folder.read = .error .blankDepth := by
    have hscan : (Token.Scan.ofProgram
        (String.ofList (Text.unifyLineBreaks "1".toList))).outcome = .ok [.number 1] := by
      decide +kernel
    rw [run_of_file .empty _ hparse rfl hcontent fun hblank => absurd hblank Bool.false_ne_true]
    simp only [performText, hscan]
    rfl
  refine ⟨hhelp, by decide, hcontent, hbreaks, ?_⟩
  rintro ⟨report, ending, hreport, -⟩
  cases hbreaks.symm.trans hreport

end CommandLine

end PlusLisp
