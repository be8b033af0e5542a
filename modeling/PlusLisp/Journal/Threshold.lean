import PlusLisp.Journal
import PlusLisp.Text.Uppercase

/-!
The threshold of the journal: events below it are not shown. It is set by name, once: with an
outlet open, later names are only looked up.
-/

namespace PlusLisp

/-! ### Names of levels -/

/-- What the name of a level may turn out to name. -/
inductive LevelName where
  /-- A rank. -/
  | rank (rank : Nat)
  /-- The layout of a plain line, which is no rank. -/
  | layout
  /-- The styles in which layouts are written, which are no rank either. -/
  | styles
  deriving DecidableEq, Repr

/-- The names that mean something, in upper case. -/
def LevelName.table : List (String × LevelName) :=
  [("DEBUG", rank 10), ("INFO", rank 20), ("WARNING", rank 30), ("WARN", rank 30),
    ("ERROR", rank 40), ("CRITICAL", rank 50), ("FATAL", rank 50), ("NOTSET", rank 0),
    ("BASIC_FORMAT", layout), ("_STYLES", styles)]

/-- Why a name is no level. -/
inductive LevelError where
  /-- It means nothing. -/
  | unknown (name : String)
  /-- It names the layout of a plain line. -/
  | layout
  /-- It names the styles of layouts. -/
  | styles
  deriving DecidableEq, Repr

/-- The wording of an error about a name. -/
def LevelError.message : LevelError → String
  | unknown name => "module 'logging' has no attribute '" ++ name ++ "'"
  | layout => "Unknown level: '%(levelname)s:%(name)s:%(message)s'"
  | styles =>
      "Level not an integer or a valid string: \x7b" ++
        "'%': (<class 'logging.PercentStyle'>, '%(levelname)s:%(name)s:%(message)s'), " ++
        "'\x7b': (<class 'logging.StrFormatStyle'>, " ++
          "'\x7blevelname\x7d:\x7bname\x7d:\x7bmessage\x7d'), " ++
        "'$': (<class 'logging.StringTemplateStyle'>, " ++
          "'$\x7blevelname\x7d:$\x7bname\x7d:$\x7bmessage\x7d')\x7d"

/-! ### The threshold -/

/-- The threshold of the journal, and how many outlets it has. -/
structure Threshold where
  rank : Nat := 30
  handlers : Nat := 0
  deriving DecidableEq, Repr

namespace Threshold

/-- Set the threshold by name, that of warnings by default, after opening an outlet. With an
outlet open already, nothing changes. A name that means something else than a rank is found out
only when the threshold is set, after the outlet is open. -/
def configure (threshold : Threshold) (level : Option String) : Threshold × Option LevelError :=
  let name := Text.uppercase (level.getD "WARNING")
  let opened := { threshold with handlers := 1 }
  match LevelName.table.lookup name, threshold.handlers with
  | none, _ => (threshold, some (.unknown name))
  | some _, _ + 1 => (threshold, none)
  | some (.rank rank), 0 => ({ opened with rank }, none)
  | some .layout, 0 => (opened, some .layout)
  | some .styles, 0 => (opened, some .styles)

/-- The threshold at a severity, with one outlet open. -/
def ofSeverity (severity : Severity) : Threshold := ⟨severity.rank, 1⟩

/-- Whether an event is shown. -/
def shows (threshold : Threshold) (event : Event) : Bool := threshold.rank ≤ event.severity.rank

end Threshold

end PlusLisp
