import PlusLisp.Proofs.CommandLine.Strict
import PlusLisp.Proofs.Program.Size
import PlusLisp.Proofs.Text.Numeral
import PlusLisp.Proofs.Text.Utf8

/-!
The command and the library agree. What the command shows of a program file is what comes of
running its text under the limits that were asked for (`Report.Shows`). The audit that it makes of
a program if so asked never changes what is shown: it only rejects.

The command breaks down over faults that cannot be worded. None comes up: the limits of a command
can be written, and no file is so long that a count of its nodes could not (`Folder.readsShort`).

Main statement: `run_shows`.
-/

namespace PlusLisp.CommandLine

open Text (FitsOnLine EndsLine lastLine)

variable {words : List String} {options : Options} {text : String} {fault : Fault}
  {tokens : List Token} {tree : Tree}

/-! ### Files -/

namespace Folder

/-- Holds of a path that leads to a file of a folder, when the file has the UTF-8 of a text. -/
structure HasText (folder : Folder) (path content : String) : Prop where
  noNul : '\x00' ∉ path.toList
  bytes : folder.bytes path = .ok content.toUTF8.data.toList

theorem HasText.read_eq {folder : Folder} {path content : String}
    (h : folder.HasText path content) :
    folder.read path = .ok (String.ofList (Text.unifyLineBreaks content.toList)) := by
  rw [read, h.bytes]
  exact SourceFile.text_toUTF8 content

/-- Holds of the names that files can have. -/
structure IsFileName (name : String) : Prop where
  nonempty : name ≠ ""
  notHere : name ≠ "."
  notOutside : name ≠ ".."
  noSlash : '/' ∉ name.toList
  noNul : '\x00' ∉ name.toList
  short : name.utf8ByteSize ≤ longestName

/-- A file of a folder is found under its name. -/
theorem IsFileName.hasText {folder : Folder} {name content : String} (h : IsFileName name)
    (hfile : folder.files.lookup name = some content.toUTF8.data.toList)
    (hsize : content.toUTF8.data.toList.length ≤ largestFile) : folder.HasText name content := by
  have hstart : ¬name.toList.head? = some '/' := by
    intro hhead
    exact h.noSlash (List.mem_of_mem_head? hhead)
  have hnames : names name.toList = [name] := by
    have hslash : ∀ c ∈ name.toList, (c == '/') = false := by
      intro c hmem
      exact beq_eq_false_iff_ne.mpr fun heq => h.noSlash (heq ▸ hmem)
    rw [names, List.splitOn, List.splitOnP_eq_singleton hslash, List.map_singleton,
      String.ofList_toList]
  have hfollow : folder.follow .here name = .ok (.file content.toUTF8.data.toList) := by
    have hlong : ¬longestName < name.utf8ByteSize := Nat.not_lt.mpr h.short
    simp only [follow, h.nonempty, h.notHere, h.notOutside, or_self, if_false, if_neg hlong, hfile]
  have hlong : ¬longestPath < name.utf8ByteSize :=
    Nat.not_lt.mpr (Nat.le_trans h.short (by decide))
  refine ⟨h.noNul, ?_⟩
  simp only [bytes, if_neg h.nonempty, if_neg hlong, if_neg hstart, hnames]
  rw [List.foldlM_cons, hfollow]
  exact if_pos hsize

/-- The only file of a folder is found under its name. -/
theorem IsFileName.hasText_single {name content : String} (h : IsFileName name)
    (hsize : content.toUTF8.data.toList.length ≤ largestFile) :
    HasText ⟨[(name, content.toUTF8.data.toList)]⟩ name content :=
  h.hasText List.lookup_cons_self hsize

theorem length_le_of_bytes {folder : Folder} {path : String} {bytes : List UInt8}
    (h : folder.bytes path = .ok bytes) : bytes.length ≤ largestFile := by
  unfold Folder.bytes at h
  split at h
  · cases h
  · split at h
    · cases h
    · dsimp only at h
      split at h
      · split at h
        · next hsize =>
          cases h
          exact hsize
        · cases h
      · cases h
      · cases h

end Folder

/-- Holds of the ways to read files by which no text is too long for its length to be written. -/
def ReadsShort (read : String → Except SourceFile.Failure String) : Prop :=
  ∀ path text, read path = .ok text → Text.IsWritable (text.length + 1 : Nat)

/-- A file has not enough bytes for a text of that length. -/
theorem Folder.readsShort (folder : Folder) : ReadsShort folder.read := by
  intro path text hread
  unfold Folder.read at hread
  cases hbytes : folder.bytes path with
  | error failure =>
    rw [hbytes] at hread
    cases hread
  | ok bytes =>
    rw [hbytes] at hread
    have hlength := SourceFile.length_le_of_text hread
    have hsize : bytes.length ≤ 0x7fffffffffffffff := length_le_of_bytes hbytes
    refine Text.isWritable_of_natAbs_lt ?_
    omega

/-! ### Faults that are complained of -/

/-- The limits of a command can be written. -/
theorem isWritable_limits (h : parse words = .ok (.run options)) : options.limits.IsWritable := by
  refine (parse_eq_run_iff.mp h).keeps (P := fun options => options.limits.IsWritable)
    (fun _ => id) ?_ (by rintro n (⟨⟨⟩⟩ | ⟨⟨⟩⟩))
  intro options next hchange hoptions
  cases hchange with
  | @blank _ _ switch =>
    cases switch with
    | maxDepth => exact fun n hn => hoptions n (.inr (hn.resolve_left nofun))
    | maxSteps => exact fun n hn => hoptions n (.inl (hn.resolve_right nofun))
    | help | format | strict | logLevel | verbose => exact hoptions
  | assign hassign =>
    obtain ⟨format, rfl⟩ | ⟨m, hm, rfl⟩ | ⟨m, hm, rfl⟩ | ⟨severity, rfl⟩ :=
      Options.assign_eq_ok hassign
    · exact hoptions
    · rintro n (hn | hn)
      · cases hn
        exact Text.isWritable_of_readInteger hm
      · exact hoptions n (.inr hn)
    · rintro n (hn | hn)
      · exact hoptions n (.inl hn)
      · cases hn
        exact Text.isWritable_of_readInteger hm
    · exact hoptions
  | file | strict | verbose => exact hoptions

/-- A run complains of every plain fault that can be worded. -/
theorem complainsOf_family (hplain : fault.IsPlain) (hworded : fault.CanBeWorded) :
    complainsOf fault.family = true := by
  rw [Fault.family, if_pos hworded]
  cases fault with
  | unknownToken | unknownTree | badNumeral => exact absurd hplain id
  | literalOutOfRange | integerOutOfRange | missingOperands | depthExceeded | stepsExceeded => rfl

/-! ### What a run comes to -/

/-- With no limit left blank, an evaluation does not break down. -/
theorem Options.evaluationBreakdown?_eq_none (h : options.blankLimits = []) :
    options.evaluationBreakdown? = none := by
  have hblank : options.maxDepth.isBlank = false ∧ options.maxSteps.isBlank = false := by
    simpa [blankLimits] using h
  simp [evaluationBreakdown?, hblank]

/-- What a command makes of a program text is never a breakdown, if the length of the text can be
written. -/
theorem conclude_run (hparse : parse words = .ok (.run options))
    (hlength : Text.IsWritable (text.length + 1 : Nat)) (log : List Event) :
    conclude log (Program.run options.limits text).outcome =
      .ok ⟨log, (Program.run options.limits text).outcome.mapError .stopped⟩ := by
  cases houtcome : (Program.run options.limits text).outcome with
  | ok value => rfl
  | error fault =>
    have hworded := Program.canBeWorded_of_run (isWritable_limits hparse) hlength houtcome
    exact if_pos (complainsOf_family (Program.isPlain_of_run houtcome) hworded)

/-- Without an audit, the text of a file is run like any other. -/
theorem performText_eq (hparse : parse words = .ok (.run options))
    (hlimits : options.blankLimits = []) (hstrict : options.strict = false)
    (hlength : Text.IsWritable (text.length + 1 : Nat)) :
    performText options text = .ok ⟨(Program.run options.limits text).log,
      (Program.run options.limits text).outcome.mapError .stopped⟩ := by
  rw [← conclude_run hparse hlength]
  cases hscan : (Token.Scan.ofProgram text).outcome with
  | error fault => simp only [performText, Program.run, hscan]
  | ok tokens =>
    obtain ⟨tree, hread, -⟩ := Program.exists_tree_of_scan hscan
    simp only [performText, Program.run, hscan, hread, hstrict, Bool.false_eq_true, if_false,
      List.isEmpty_nil, if_true, performTree, Options.evaluationBreakdown?_eq_none hlimits]
    rfl

theorem performText_strict_of_scan_error (options : Options)
    (h : (Token.Scan.ofProgram text).outcome = .error fault) :
    performText options.audited text = performText options text := by
  rw [performText, performText, h]

/-- An audit rejects a program, or else the program is run as without it. -/
theorem performText_strict (hstrict : options.strict = false)
    (hscan : (Token.Scan.ofProgram text).outcome = .ok tokens)
    (hread : (Tree.read tokens).outcome = .ok tree) :
    performText options.audited text =
      if Audit.program tokens tree {} = [] then performText options text
      else .ok ⟨(Token.Scan.ofProgram text).log ++ (Tree.read tokens).log,
        .error (.rejected (Audit.program tokens tree {}))⟩ := by
  have hplain : performText options text = performTree options
      ((Token.Scan.ofProgram text).log ++ (Tree.read tokens).log) tree := by
    simp [performText, hscan, hread, hstrict]
  rw [hplain]
  simp only [performText, hscan, hread, List.isEmpty_iff]
  rfl

/-! ### What a report shows -/

/-- A report shows what comes of a program: with code 0 its value as a format prints it, or with
code 1 nothing but a last line that says what stopped it. -/
structure Report.Shows (report : Report) (format : Format) (outcome : Except Fault Tree) :
    Prop where
  prints : ∀ output, report.code = 0 ∧ report.stdout = output ↔
    ∃ value, outcome = .ok value ∧ output = format.print value ++ "\n"
  complains : ∀ message,
    report.code = 1 ∧ report.stdout = "" ∧ lastLine report.stderr = "Error: " ++ message ↔
      ∃ fault, outcome = .error fault ∧ message = fault.message

/-- The journal is shown in complete lines. -/
theorem endsLine_shownLog (threshold : Threshold) (log : List Event) :
    EndsLine (shownLog threshold log) := by
  apply Text.endsLine_join
  intro line hmem
  obtain ⟨event, -, rfl⟩ := List.mem_map.mp hmem
  exact .inr ⟨_, rfl⟩

/-- A complaint is the last line of a report. -/
theorem lastLine_complaint (threshold : Threshold) (log : List Event) {message : String}
    (h : FitsOnLine message) :
    lastLine (shownLog threshold log ++ "Error: " ++ message ++ "\n") = "Error: " ++ message := by
  have hline : FitsOnLine ("Error: " ++ message) := .append (by decide +kernel) h
  have hsplit : shownLog threshold log ++ "Error: " ++ message =
      shownLog threshold log ++ ("Error: " ++ message) := String.append_assoc
  rw [hsplit]
  exact Text.lastLine_append (endsLine_shownLog threshold log) hline

/-- The report on a program without an audit shows what came of the program. -/
theorem shows_reportRun (store : Store) (options : Options) (log : List Event)
    {outcome : Except Fault Tree} (h : ∀ fault, outcome = .error fault → fault.IsPlain) :
    (reportRun store options ⟨log, outcome.mapError .stopped⟩).Shows options.format outcome := by
  cases outcome with
  | ok value =>
    constructor
    · intro output
      simp [reportRun, Except.mapError, eq_comm]
    · intro message
      simp [reportRun, Except.mapError]
  | error fault =>
    have hlast : lastLine (reportRun store options
        ⟨log, .error (.stopped fault)⟩).stderr = "Error: " ++ fault.message :=
      lastLine_complaint _ log (h fault rfl).fitsOnLine
    constructor
    · intro output
      simp [reportRun, Except.mapError]
    · intro message
      rw [Except.mapError, hlast]
      constructor
      · rintro ⟨-, -, hmessage⟩
        exact ⟨fault, rfl, ((String.append_right_inj _).mp hmessage).symm⟩
      · rintro ⟨_, houtcome, rfl⟩
        cases houtcome
        exact ⟨rfl, rfl, rfl⟩

/-- Asking for an audit changes nothing about how a run is reported on. -/
theorem reportRun_audited (store : Store) (options : Options) :
    reportRun store options.audited = reportRun store options := rfl

/-- A report rejects a program: with code 1 it shows nothing but a last line that says what the
audit has found. -/
structure Report.Rejects (report : Report) (findings : List Finding) : Prop where
  code : report.code = 1
  stdout : report.stdout = ""
  stderr : lastLine report.stderr =
    "Error: " ++ "; ".intercalate (findings.map Finding.message)

/-- A report on a program text that is audited first, given the report without an audit: they are
the same unless the audit of the tokens and the tree finds anything, which rejects the program. -/
structure Report.Audits (report plain : Report) (text : String) : Prop where
  unscanned : ∀ fault, (Token.Scan.ofProgram text).outcome = .error fault → report = plain
  scanned : ∀ tokens, (Token.Scan.ofProgram text).outcome = .ok tokens →
    ∃ tree, (Tree.read tokens).outcome = .ok tree ∧
      (Audit.program tokens tree ⟨200, 100000⟩ = [] → report = plain) ∧
      (Audit.program tokens tree ⟨200, 100000⟩ ≠ [] →
        report.Rejects (Audit.program tokens tree ⟨200, 100000⟩))

theorem rejects_reportRun (store : Store) (options : Options) (log : List Event)
    (findings : List Finding) :
    (reportRun store options ⟨log, .error (.rejected findings)⟩).Rejects findings where
  code := rfl
  stdout := rfl
  stderr := by
    apply lastLine_complaint
    apply FitsOnLine.intercalate (by decide +kernel)
    intro message hmem
    obtain ⟨finding, -, rfl⟩ := List.mem_map.mp hmem
    exact finding.fitsOnLine

/-- A program text that is audited first is reported on as it is without an audit, or rejected. -/
theorem exists_audits {plain : Performance} (store : Store) (hstrict : options.strict = false)
    (hplain : performText options text = .ok plain) :
    ∃ report, (performText options.audited text).map (reportRun store options) = .ok report ∧
      report.Audits (reportRun store options plain) text := by
  cases hscan : (Token.Scan.ofProgram text).outcome with
  | error fault =>
    rw [performText_strict_of_scan_error options hscan, hplain]
    refine ⟨_, rfl, fun _ _ => rfl, ?_⟩
    intro tokens htokens
    cases hscan.symm.trans htokens
  | ok tokens =>
    obtain ⟨tree, hread, -⟩ := Program.exists_tree_of_scan hscan
    rw [performText_strict hstrict hscan hread, hplain]
    by_cases hfindings : Audit.program tokens tree {} = []
    · rw [if_pos hfindings]
      refine ⟨_, rfl, fun _ _ => rfl, ?_⟩
      intro tokens' htokens
      cases hscan.symm.trans htokens
      exact ⟨tree, hread, fun _ => rfl, fun hne => absurd hfindings hne⟩
    · rw [if_neg hfindings]
      refine ⟨_, rfl, ?_, ?_⟩
      · intro fault hfault
        cases hscan.symm.trans hfault
      · intro tokens' htokens
        cases hscan.symm.trans htokens
        exact ⟨tree, hread, fun hnil => absurd hnil hfindings,
          fun _ => rejects_reportRun store options _ _⟩

/-! ### The command -/

/-- The command runs the text of its file, unless the severity was left blank. -/
theorem run_of_file (store : Store) (options : Options) {folder : Folder}
    {path content : String} (hparse : parse words = .ok (.run options))
    (hfile : options.file = some path) (hcontent : folder.HasText path content)
    (hlevel : options.logLevel.isBlank = true → options.verbose = true) :
    run store words folder.read =
      (performText options (String.ofList (Text.unifyLineBreaks content.toList))).map
        (reportRun store options) := by
  rw [run_of_severity store hparse hlevel]
  simp only [perform, hfile, if_neg hcontent.noNul, hcontent.read_eq]

/-- **The command agrees with the library, and the audit only rejects.** A command that names a
file and leaves neither a limit nor the severity blank reports what comes of the text of the file,
line breaks unified, under its limits. With an audit asked for, in front of the other words or
anywhere among them, the report is the same, unless the audit rejects the program. -/
theorem run_shows (store : Store) {folder : Folder} {words : List String} {options : Options}
    {path content : String} (hparse : parse words = .ok (.run options))
    (hstrict : options.strict = false) (hfile : options.file = some path)
    (hcontent : folder.HasText path content) (hlimits : options.blankLimits = [])
    (hlevel : options.logLevel.isBlank = true → options.verbose = true) :
    let text := String.ofList (Text.unifyLineBreaks content.toList)
    ∃ report, run store words folder.read = .ok report ∧
      report.Shows options.format (Program.run options.limits text).outcome ∧
      parse ("--strict" :: words) = .ok (.run options.audited) ∧
      ∀ strictWords, parse strictWords = .ok (.run options.audited) →
        ∃ strictReport, run store strictWords folder.read = .ok strictReport ∧
          strictReport.Audits report text := by
  intro text
  have hlength : Text.IsWritable (text.length + 1 : Nat) :=
    folder.readsShort path text hcontent.read_eq
  have hplain := performText_eq hparse hlimits hstrict hlength
  refine ⟨reportRun store options _, ?_,
    shows_reportRun store options (Program.run options.limits text).log
      fun fault => Program.isPlain_of_run, ?_, ?_⟩
  · rw [run_of_file store options hparse hfile hcontent hlevel, hplain]
    rfl
  · rw [parse_strict, hparse]
    rfl
  · intro strictWords hparse'
    rw [run_of_file store options.audited hparse' hfile hcontent hlevel, reportRun_audited]
    exact exists_audits store hstrict hplain

/-- A file with the lines `(+ 1 2)` and `(3` comes to `(3 (3))`, and an audit rejects it. -/
theorem run_shows_unclosed :
    let words := ["--format=sexpr", "--max-depth", "3", "p.lisp"]
    let options : Options :=
      { file := some "p.lisp", format := .source, maxDepth := .value 3 }
    let content := "(+ 1 2)\r\n(3"
    let folder : Folder := ⟨[("p.lisp", content.toUTF8.data.toList)]⟩
    parse words = .ok (.run options) ∧ options.strict = false ∧ options.file = some "p.lisp" ∧
      folder.HasText "p.lisp" content ∧ options.blankLimits = [] ∧
      (options.logLevel.isBlank = true → options.verbose = true) ∧
      ∃ report strictReport, run .empty words folder.read = .ok report ∧
        report.code = 0 ∧ report.stdout = "(3 (3))\n" ∧
        run .empty ("--strict" :: words) folder.read = .ok strictReport ∧
        strictReport.Rejects [.unclosed 1] := by
  intro words options content folder
  have hformat : look "--format=sexpr" = .ok (.option .format false (some "sexpr")) := by rfl
  have hdepth : look "--max-depth" = .ok (.option .maxDepth false none) := by rfl
  have hthree : look "3" = .ok .argument := by rfl
  have hfile : look "p.lisp" = .ok .argument := by rfl
  have hparse : parse words = .ok (.run options) := parse_eq_run_iff.mpr
    (.attached hformat rfl (by decide) rfl (.following hdepth rfl hthree rfl (.file hfile .done)))
  have hname : Folder.IsFileName "p.lisp" := by constructor <;> decide +kernel
  have hcontent : folder.HasText "p.lisp" content := hname.hasText_single (by decide +kernel)
  have hverbose : options.logLevel.isBlank = true → options.verbose = true :=
    fun hblank => absurd hblank Bool.false_ne_true
  obtain ⟨report, hreport, hshows, hstrictWords, hstrict⟩ :=
    run_shows .empty hparse rfl rfl hcontent rfl hverbose
  obtain ⟨strictReport, hstrictReport, haudits⟩ := hstrict _ hstrictWords
  have hvalue : (Program.run options.limits
      (String.ofList (Text.unifyLineBreaks content.toList))).outcome =
      .ok (.list [.number 3, .list [.number 3]]) := by decide +kernel
  have hprinted : "(3 (3))\n" =
      Format.print .source (.list [.number 3, .list [.number 3]]) ++ "\n" := by
    simp only [Format.print, Tree.list, Tree.number, Tree.sourceText, List.map_cons, List.map_nil]
    rfl
  obtain ⟨hcode, hstdout⟩ := (hshows.prints "(3 (3))\n").mpr ⟨_, hvalue, hprinted⟩
  obtain ⟨tree, hread, -, hrejects⟩ := haudits.scanned [.opening none, .word (some "+"), .number 1,
    .number 2, .closing none, .opening none, .number 3] (by decide +kernel)
  obtain rfl : tree =
      .list [.list [.word (some "+"), .number 1, .number 2], .list [.number 3]] := by
    cases hread
    rfl
  have hfindings : Audit.program [.opening none, .word (some "+"), .number 1, .number 2,
      .closing none, .opening none, .number 3]
      (.list [.list [.word (some "+"), .number 1, .number 2], .list [.number 3]])
      ⟨200, 100000⟩ = [.unclosed 1] := by decide +kernel
  rw [hfindings] at hrejects
  exact ⟨hparse, rfl, rfl, hcontent, rfl, hverbose, report, strictReport, hreport, hcode, hstdout,
    hstrictReport, hrejects (by simp)⟩

/-- A severity left blank gets in the way of every report, whatever comes of the program. -/
theorem run_blankSeverity :
    let words := ["--log-level=--", "p.lisp"]
    let options : Options := { file := some "p.lisp", logLevel := .blank }
    let folder : Folder := ⟨[("p.lisp", "1".toUTF8.data.toList)]⟩
    parse words = .ok (.run options) ∧ folder.HasText "p.lisp" "1" ∧ options.limits = .unlimited ∧
      (Program.run .unlimited "1").outcome = .ok (.list [.number 1]) ∧
      run .empty words folder.read = .error .blankSeverity ∧
      ¬∃ report, run .empty words folder.read = .ok report ∧
        report.Shows options.format (Program.run .unlimited "1").outcome := by
  intro words options folder
  have hfile : look "p.lisp" = .ok .argument := by rfl
  have hblank : look "--log-level=--" = .ok (.option .logLevel false (some "--")) := by rfl
  have hparse : parse words = .ok (.run options) :=
    parse_eq_run_iff.mpr (.blank hblank rfl (.file hfile .done))
  have hbreaks : run .empty words folder.read = .error .blankSeverity := by
    rw [run, hparse]
    rfl
  have hname : Folder.IsFileName "p.lisp" := by constructor <;> decide +kernel
  have hcontent : folder.HasText "p.lisp" "1" := hname.hasText_single (by decide +kernel)
  have hvalue : (Program.run .unlimited "1").outcome = .ok (.list [.number 1]) := by
    decide +kernel
  refine ⟨hparse, hcontent, rfl, hvalue, hbreaks, ?_⟩
  rintro ⟨report, hreport, -⟩
  cases hbreaks.symm.trans hreport

end PlusLisp.CommandLine
