import PlusLisp.CommandLine.Folder
import PlusLisp.CommandLine.Grammar
import PlusLisp.Journal.Threshold
import PlusLisp.Program
import PlusLisp.Tree.Printer

/-!
Runs of the command: the program of a file is read, audited if so asked, run, and its result
printed. Everything a run reports is collected first; the threshold then decides what is shown.
A run breaks down, and reports nothing, when it needs what was left blank, when the path of its
file holds the character NUL, or over a fault that it does not complain of.

The words of a command, the paths of files and the texts in them are made of Unicode scalar values:
words that a host hands over in another form are out of sight. So are the time at which a record of
the journal is shown and the usage lines above the error of a misuse.
-/

namespace PlusLisp.CommandLine

/-- Why a run has no result. -/
inductive Complaint where
  | noFile
  | unreadable
  | rejected (findings : List Finding)
  | stopped (fault : Fault)
  deriving DecidableEq, Repr

/-- The wording of a complaint. -/
def Complaint.message : Complaint → String
  | noFile => "No file provided."
  | unreadable => "Failed to read the file."
  | rejected findings => "; ".intercalate (findings.map Finding.message)
  | stopped fault => fault.message

/-- What comes of a run: what it reports, and its result or the complaint about it. -/
structure Performance where
  log : List Event
  result : Except Complaint Tree

/-- Holds of the families of faults that a run complains of. -/
def complainsOf : Fault.Family → Bool
  | .literal | .range | .operands | .limit => true
  | .kind | .numeral => false

/-- What comes of a run that has reported a log and ended in an outcome. Whether a run complains of
a fault or breaks down over it depends on how the fault is answered, so that it breaks down over one
that cannot be worded. -/
def conclude (log : List Event) (outcome : Except Fault Tree) : Except Breakdown Performance :=
  match outcome with
  | .ok tree => .ok ⟨log, .ok tree⟩
  | .error fault =>
    if complainsOf fault.family then .ok ⟨log, .error (.stopped fault)⟩
    else .error (.unknownKind fault)

/-- The breakdown of an evaluation that needs a limit left blank. The first step needs the limit on
the depth, and the one on the steps unless it is too deep already. -/
def Options.evaluationBreakdown? (options : Options) : Option Breakdown :=
  if options.maxDepth.isBlank then some .blankDepth
  else if options.maxSteps.isBlank && (options.limits.breach? 0 0).isNone then some .blankSteps
  else none

/-- Run a tree under the given options. What was reported before is given. -/
def performTree (options : Options) (log : List Event) (tree : Tree) :
    Except Breakdown Performance :=
  match options.evaluationBreakdown? with
  | some breakdown => .error breakdown
  | none =>
    let evaluation := Evaluator.runProgram ⟨options.limits, 0⟩ tree
    conclude (log ++ evaluation.log) evaluation.outcome

/-- Run a program text under the given options. -/
def performText (options : Options) (text : String) : Except Breakdown Performance :=
  let scan := Token.Scan.ofProgram text
  match scan.outcome with
  | .error fault => conclude scan.log (.error fault)
  | .ok tokens =>
    let reading := Tree.read tokens
    let log := scan.log ++ reading.log
    match reading.outcome with
    | .error fault => conclude log (.error fault)
    | .ok tree =>
      let findings :=
        if options.strict then Audit.program tokens tree options.settings.bounds else []
      if findings.isEmpty then performTree options log tree
      else .ok ⟨log, .error (.rejected findings)⟩

/-- Run the program of a file under the given options, with a way to read files. -/
def perform (options : Options) (read : String → Except SourceFile.Failure String) :
    Except Breakdown Performance :=
  match options.file with
  | none => .ok ⟨[], .error .noFile⟩
  | some path =>
    if '\x00' ∈ path.toList then .error .nulInPath
    else
      match read path with
      | .error failure => .ok ⟨[.unreadable path failure], .error .unreadable⟩
      | .ok text => performText options text

/-- What a command leaves behind: its exit code, the two outputs, the settings, and the options
for limits that were left blank, which the settings leave open. -/
structure Report where
  code : Nat
  stdout : String
  stderr : String
  store : Store
  blankLimits : List Switch := []

/-- The text of a result. -/
def Format.print : Format → Tree → String
  | debug, tree => tree.debugText
  | source, tree => tree.sourceText

/-- The journal as it is shown under a threshold. -/
def shownLog (threshold : Threshold) (log : List Event) : String :=
  String.join ((log.filter threshold.shows).map Event.line)

/-- The report on a run under the given options. -/
def reportRun (store : Store) (options : Options) (performance : Performance) : Report :=
  let store := store.set (some options.settings)
  let log := shownLog (.ofSeverity options.severity) performance.log
  match performance.result with
  | .ok tree => ⟨0, options.format.print tree ++ "\n", log, store, options.blankLimits⟩
  | .error complaint =>
    ⟨1, "", log ++ "Error: " ++ complaint.message ++ "\n", store, options.blankLimits⟩

/-- The report on an error of use. -/
def reportMisuse (store : Store) (misuse : UsageError) : Report :=
  { code := 2, stdout := "", stderr := "minilisp: error: " ++ misuse.message ++ "\n", store }

/-- The lines that say how the command is used. -/
def usage : String :=
  "usage: minilisp [-h] [--format \x7bdebug,sexpr\x7d] [--strict]\n" ++
  "                [--max-depth MAX_DEPTH] [--max-steps MAX_STEPS]\n" ++
  "                [--log-level \x7bDEBUG,INFO,WARNING,ERROR,CRITICAL\x7d] [--verbose]\n" ++
  "                [file]\n"

/-- What is said about an option, and about its value if it has one. -/
def Switch.description : Switch → String
  | help =>
      "  -h, --help            show this help message and exit\n"
  | format =>
      "  --format \x7bdebug,sexpr\x7d\n" ++
      "                        Result rendering: debug structure or Lisp-style text\n"
  | strict =>
      "  --strict              Reject unbalanced parentheses and short '+' forms\n" ++
      "                        before evaluating\n"
  | maxDepth =>
      "  --max-depth MAX_DEPTH\n" ++
      "                        Maximum evaluation depth\n"
  | maxSteps =>
      "  --max-steps MAX_STEPS\n" ++
      "                        Maximum evaluation steps\n"
  | logLevel =>
      "  --log-level \x7bDEBUG,INFO,WARNING,ERROR,CRITICAL\x7d\n" ++
      "                        Logging level\n"
  | verbose =>
      "  --verbose, -v         Verbose output\n"

/-- What a request for help shows: how the command is used, what it does, and its words, in lines
for an output of 80 columns. -/
def helpText : String :=
  usage ++ "\nEvaluate a MiniLisp program\n\npositional arguments:\n" ++
  "  file                  Path to the program source\n\noptions:\n" ++
  String.join (Switch.all.map Switch.description)

/-- The report on a command, with a way to read files. Its words, like the paths in them, are texts
of Unicode scalar values. -/
def run (store : Store) (words : List String)
    (read : String → Except SourceFile.Failure String) : Except Breakdown Report :=
  match parse words with
  | .error misuse => .ok (reportMisuse store misuse)
  | .ok .help => .ok { code := 0, stdout := helpText, stderr := "", store }
  | .ok (.run options) =>
    if options.logLevel.isBlank && !options.verbose then .error .blankSeverity
    else (perform options read).map (reportRun store options)

end PlusLisp.CommandLine
