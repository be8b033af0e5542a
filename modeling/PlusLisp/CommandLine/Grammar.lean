import PlusLisp.CommandLine.Switch

/-!
The grammar of the command: options and at most one file, in any order.

Each word is first sorted by its look. An option may be abbreviated to any beginning that no
other option shares, and may have its value attached after an equals sign. Words that look like
negative numbers, a lone dash, and words with spaces that name no option are arguments; after
the word `--` all words are. Then the words are taken in order: an option takes its value from
the next word, which has to be an argument, and the first other argument is the file. An attached
value `--` leaves the value of the option blank. That is how the releases of the option parser read
it that drop the word `--` from the values of any option; later ones say that an argument is
expected.
-/

namespace PlusLisp.CommandLine

/-! ### Sorting words -/

/-- What a word looks like. -/
inductive Look where
  /-- An argument: the file, or the value of an option. -/
  | argument
  /-- The word after which all words are arguments. -/
  | terminator
  /-- An option, spelled with one dash or two, and the value attached to it. -/
  | option (switch : Switch) (short : Bool) (attached : Option String)
  /-- An option that does not exist. -/
  | stranger
  deriving DecidableEq, Repr

/-- The part of a word before its first equals sign and, if it has one, the part after it. -/
def splitEquals (word : List Char) : List Char × Option (List Char) :=
  match word.dropWhile (· ≠ '=') with
  | [] => (word, none)
  | _ :: value => (word.takeWhile (· ≠ '='), some value)

/-- Whether a spelling has one dash only. -/
def isShort (spelling : List Char) : Bool := spelling[1]? ≠ some '-'

/-- The options that a word can stand for without spelling one out in full: all that start with
the word if it starts with two dashes, and otherwise the option of one letter that it starts
with, the rest of the word being its value. -/
def candidates (word : List Char) : List (String × Switch × Option (List Char)) :=
  match word with
  | '-' :: '-' :: _ =>
    let (start, value) := splitEquals word
    Switch.table.filterMap fun (spelling, switch) =>
      if start.isPrefixOf spelling.toList then some (spelling, switch, value) else none
  | dash :: letter :: rest =>
    Switch.table.filterMap fun (spelling, switch) =>
      if spelling.toList = [dash, letter] then some (spelling, switch, some rest) else none
  | _ => []

/-- Holds of one or more decimal digits. -/
def isDigits (text : List Char) : Bool :=
  !text.isEmpty && text.all fun c => (Text.decimalValue? c).isSome

/-- Holds of what looks like a negative number: a dash and digits, with a point before at least
the last of them or none. A line feed may follow. -/
def isNegativeNumber (word : List Char) : Bool :=
  match word with
  | '-' :: rest =>
    let rest := if rest.getLast? = some '\n' then rest.dropLast else rest
    match rest.dropWhile (· ≠ '.') with
    | [] => isDigits rest
    | _ :: decimals =>
      let whole := rest.takeWhile (· ≠ '.')
      (whole.isEmpty || isDigits whole) && isDigits decimals
  | _ => false

/-- Sort a word that is not the terminator. -/
def look (word : String) : Except UsageError Look :=
  let text := word.toList
  let (start, value) := splitEquals text
  if text.head? ≠ some '-' then .ok .argument
  else
    match Switch.ofSpelling? word with
    | some switch => .ok (.option switch (isShort text) none)
    | none =>
      match value, Switch.ofSpelling? (String.ofList start) with
      | some value, some switch =>
          .ok (.option switch (isShort start) (some (String.ofList value)))
      | _, _ =>
        match candidates text with
        | [(spelling, switch, value)] =>
            .ok (.option switch (isShort spelling.toList) (value.map String.ofList))
        | first :: second :: more =>
            .error (.ambiguous word ((first :: second :: more).map (·.1)))
        | [] =>
          .ok (if text = ['-'] ∨ isNegativeNumber text ∨ ' ' ∈ text then .argument
            else .stranger)

/-- Sort all words. -/
def looks : List String → Except UsageError (List (String × Look))
  | [] => .ok []
  | word :: words =>
    if word = "--" then .ok ((word, .terminator) :: words.map (·, .argument))
    else do
      let first ← look word
      let rest ← looks words
      return (word, first) :: rest

/-! ### Taking words -/

/-- What a command asks for. -/
inductive Request where
  | help
  | run (options : Options)
  deriving DecidableEq, Repr

/-- How far the words have been taken: the options so far, whether the place of the file has
been filled, and the words without place, newest first. -/
structure Intake where
  options : Options
  filled : Bool
  extras : List String

namespace Intake

/-- Put a word into the place of the file, or keep it as one without place. -/
def place (p : Intake) (word : String) : Intake :=
  if p.filled then { p with extras := word :: p.extras }
  else { p with options := { p.options with file := some word }, filled := true }

/-- What the command asks for once all words are taken. -/
def finish (p : Intake) : Except UsageError Request :=
  if p.extras.isEmpty then .ok (.run p.options) else .error (.unrecognized p.extras.reverse)

end Intake

/-- The options of one letter in a word, the first of which is known: all letters that follow
have to be such options too. -/
def cluster (switch : Switch) : List Char → Except UsageError (List Switch)
  | [] => .ok [switch]
  | letter :: letters =>
    match Switch.ofSpelling? (String.ofList ['-', letter]) with
    | some next => (cluster next letters).map (switch :: ·)
    | none => .error (.ignoredValue switch (String.ofList (letter :: letters)))

/-- The options without value that a word gives: what is attached to one of one letter are more
of them, and to another nothing may be attached. -/
def flags (switch : Switch) (short : Bool) (attached : Option String) :
    Except UsageError (List Switch) :=
  match attached with
  | none => .ok [switch]
  | some value =>
    if short ∧ value ≠ "" then cluster switch value.toList
    else .error (.ignoredValue switch value)

/-- Turn on options without value, until help is asked for. -/
def turnOn (options : Options) : List Switch → Option Options
  | [] => some options
  | .help :: _ => none
  | .strict :: rest => turnOn { options with strict := true } rest
  | .verbose :: rest => turnOn { options with verbose := true } rest
  | _ :: rest => turnOn options rest

/-- Take the words in order. -/
def take : List (String × Look) → Intake → Except UsageError Request
  | [], p => p.finish
  | (word, .argument) :: rest, p =>
    match p.filled, rest with
    | false, (_, .terminator) :: rest => take rest (p.place word)
    | _, rest => take rest (p.place word)
  | (word, .terminator) :: rest, p => take rest (if p.filled then p.place word else p)
  | (word, .stranger) :: rest, p => take rest { p with extras := word :: p.extras }
  | (_, .option switch short attached) :: rest, p =>
    if switch.takesValue then
      match attached, rest with
      | some value, rest =>
        if value = "--" then take rest { p with options := p.options.leaveBlank switch }
        else
          match p.options.assign switch value with
          | .ok options => take rest { p with options }
          | .error e => .error e
      | none, (value, .argument) :: rest =>
        match p.options.assign switch value with
        | .ok options => take rest { p with options }
        | .error e => .error e
      | none, _ => .error (.missingValue switch)
    else
      match flags switch short attached with
      | .error e => .error e
      | .ok switches =>
        match turnOn p.options switches with
        | some options => take rest { p with options }
        | none => .ok .help

/-- What the words of a command ask for. -/
def parse (words : List String) : Except UsageError Request := do
  take (← looks words) ⟨{}, false, []⟩

end PlusLisp.CommandLine
