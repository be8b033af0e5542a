import PlusLisp.Journal.Severity
import PlusLisp.Limits
import PlusLisp.Settings
import PlusLisp.Text.Numeral
import PlusLisp.Text.Quoted
import PlusLisp.Text.Uppercase

/-!
The options of the command: their spellings, what their values may be, and the errors of use.
-/

namespace PlusLisp.CommandLine

/-- The options. -/
inductive Switch where
  | help
  | format
  | strict
  | maxDepth
  | maxSteps
  | logLevel
  | verbose
  deriving DecidableEq, Repr

namespace Switch

/-- The spellings of an option. -/
def spellings : Switch → List String
  | help => ["-h", "--help"]
  | format => ["--format"]
  | strict => ["--strict"]
  | maxDepth => ["--max-depth"]
  | maxSteps => ["--max-steps"]
  | logLevel => ["--log-level"]
  | verbose => ["--verbose", "-v"]

/-- The options in the order in which they are listed. -/
def all : List Switch := [help, format, strict, maxDepth, maxSteps, logLevel, verbose]

/-- Every spelling with its option. -/
def table : List (String × Switch) :=
  all.flatMap fun switch => switch.spellings.map (·, switch)

/-- The option of a spelling. -/
def ofSpelling? (spelling : String) : Option Switch := table.lookup spelling

/-- Whether an option has a value. -/
def takesValue : Switch → Bool
  | format | maxDepth | maxSteps | logLevel => true
  | help | strict | verbose => false

/-- How an error names an option: by all its spellings. -/
def title (switch : Switch) : String := "/".intercalate switch.spellings

end Switch

/-! ### Errors of use -/

/-- What is wrong with the words of a command. -/
inductive UsageError where
  /-- A word abbreviates several options. -/
  | ambiguous (word : String) (candidates : List String)
  /-- An option lacks its value. -/
  | missingValue (switch : Switch)
  /-- An option without value is given one. -/
  | ignoredValue (switch : Switch) (value : String)
  /-- A value is no integer. -/
  | invalidInteger (switch : Switch) (value : String)
  /-- A value is none of the choices. -/
  | invalidChoice (switch : Switch) (value : String) (choices : List String)
  /-- Some words have no place in the command. -/
  | unrecognized (words : List String)
  deriving DecidableEq, Repr

/-- The wording of an error of use. -/
def UsageError.message : UsageError → String
  | ambiguous word candidates =>
      "ambiguous option: " ++ word ++ " could match " ++ ", ".intercalate candidates
  | missingValue switch => "argument " ++ switch.title ++ ": expected one argument"
  | ignoredValue switch value =>
      "argument " ++ switch.title ++ ": ignored explicit argument " ++ quoted value
  | invalidInteger switch value =>
      "argument " ++ switch.title ++ ": invalid int value: " ++ quoted value
  | invalidChoice switch value choices =>
      "argument " ++ switch.title ++ ": invalid choice: " ++ quoted value ++
        " (choose from " ++ ", ".intercalate (choices.map quoted) ++ ")"
  | unrecognized words => "unrecognized arguments: " ++ " ".intercalate words
where
  /-- A word between quotation marks. -/
  quoted (text : String) : String := Text.quote Text.isPrintable text

/-! ### Values -/

/-- The texts in which a result can be printed. -/
inductive Format where
  | debug
  | source
  deriving DecidableEq, Repr

/-- The choices of the format, with their names. -/
def Format.choices : List (String × Format) := [("debug", debug), ("sexpr", source)]

/-- What stands in the place of the value of an option. -/
inductive Entry (α : Type) where
  /-- Nothing was given, and the default is in force. -/
  | unset
  /-- A value was given and left blank: neither the default nor a value is in force. -/
  | blank
  /-- A value was given. -/
  | value (given : α)
  deriving DecidableEq, Repr

namespace Entry

variable {α : Type}

/-- The value that was given, if there is one. -/
def value? : Entry α → Option α
  | unset | blank => none
  | value given => some given

/-- Holds of what was left blank. -/
def isBlank : Entry α → Bool
  | blank => true
  | unset | value _ => false

end Entry

/-- What the options ask for. -/
structure Options where
  file : Option String := none
  format : Format := .debug
  strict : Bool := false
  maxDepth : Entry Int := .unset
  maxSteps : Entry Int := .unset
  logLevel : Entry Severity := .unset
  verbose : Bool := false
  deriving DecidableEq, Repr

namespace Options

/-- The limits that are set. A limit left blank is none. -/
def limits (options : Options) : Limits := ⟨options.maxDepth.value?, options.maxSteps.value?⟩

/-- The options for limits that were left blank. -/
def blankLimits (options : Options) : List Switch :=
  (if options.maxDepth.isBlank then [.maxDepth] else []) ++
    (if options.maxSteps.isBlank then [.maxSteps] else [])

/-- The severity from which on the journal is shown: all of it if so asked anywhere. -/
def severity (options : Options) : Severity :=
  if options.verbose then .debug else options.logLevel.value?.getD .warning

/-- The settings that the options describe. -/
def settings (options : Options) : Settings :=
  ⟨options.limits, {}, options.severity.name⟩

/-- The integer that the value of an option writes. -/
def integer (switch : Switch) (value : String) : Except UsageError Int :=
  match Text.readInteger value with
  | .ok n => .ok n
  | .error _ => .error (.invalidInteger switch value)

/-- Give an option a value. An option without value takes none. -/
def assign (options : Options) (switch : Switch) (value : String) :
    Except UsageError Options :=
  match switch with
  | .format =>
    match Format.choices.lookup value with
    | some format => .ok { options with format }
    | none => .error (.invalidChoice .format value (Format.choices.map (·.1)))
  | .maxDepth => (integer .maxDepth value).map fun n => { options with maxDepth := .value n }
  | .maxSteps => (integer .maxSteps value).map fun n => { options with maxSteps := .value n }
  | .logLevel =>
    let name := Text.uppercase value
    match Severity.ofName? name with
    | some severity => .ok { options with logLevel := .value severity }
    | none => .error (.invalidChoice .logLevel name (Severity.all.map (·.name)))
  | .help | .strict | .verbose => .error (.ignoredValue switch value)

/-- Leave the value of an option blank. A blank format shows the debug text. -/
def leaveBlank (options : Options) : Switch → Options
  | .format => { options with format := .debug }
  | .maxDepth => { options with maxDepth := .blank }
  | .maxSteps => { options with maxSteps := .blank }
  | .logLevel => { options with logLevel := .blank }
  | .help | .strict | .verbose => options

end Options

end PlusLisp.CommandLine
