import PlusLisp.Proofs.CommandLine.Accepted

/-!
Asking for an audit. The word `--strict` in front of a command changes nothing about how its other
words are taken.

Main statement: `parse_strict`.
-/

namespace PlusLisp.CommandLine

/-- The options with an audit asked for. -/
def Options.audited (options : Options) : Options := { options with strict := true }

/-- The request with an audit asked for. -/
def Request.audited : Request → Request
  | help => help
  | run options => run options.audited

/-- The words taken so far, with an audit asked for. -/
def Intake.audited (p : Intake) : Intake := { p with options := p.options.audited }

/-! ### Options -/

theorem Options.assign_audited (options : Options) (switch : Switch) (value : String) :
    options.audited.assign switch value = (options.assign switch value).map audited := by
  obtain ⟨misuse, hassign⟩ | ⟨-, format, hassign⟩ | ⟨-, n, -, hassign⟩ | ⟨-, n, -, hassign⟩ |
    ⟨-, severity, hassign⟩ := assign_cases switch value <;> rw [hassign, hassign] <;> rfl

theorem Options.leaveBlank_audited (options : Options) (switch : Switch) :
    options.audited.leaveBlank switch = (options.leaveBlank switch).audited := by
  cases switch <;> rfl

theorem turnOn_audited (options : Options) (switches : List Switch) :
    turnOn options.audited switches = (turnOn options switches).map Options.audited := by
  induction switches generalizing options with
  | nil => rfl
  | cons switch switches ih =>
    cases switch with
    | help => rfl
    | strict => exact ih { options with strict := true }
    | verbose => exact ih { options with verbose := true }
    | format | maxDepth | maxSteps | logLevel => exact ih options

/-! ### Words -/

theorem Intake.place_audited (p : Intake) (word : String) :
    p.audited.place word = (p.place word).audited := by
  obtain ⟨options, filled, extras⟩ := p
  cases filled <;> rfl

theorem Intake.finish_audited (p : Intake) :
    p.audited.finish = p.finish.map Request.audited := by
  unfold finish
  by_cases h : p.extras.isEmpty <;> simp [audited, h, Except.map, Request.audited]

@[simp] theorem Intake.filled_audited (p : Intake) : p.audited.filled = p.filled := rfl

@[simp] theorem Intake.options_audited (p : Intake) : p.audited.options = p.options.audited := rfl

/-- Asking for an audit changes nothing about how words are taken. -/
theorem take_audited (looks : List (String × Look)) (p : Intake) :
    take looks p.audited = (take looks p).map Request.audited := by
  -- One case for each way in which a word is taken: none of them looks at whether an audit has been
  -- asked for, and each goes on with options that differ in nothing else.
  fun_induction take looks p with
  | case1 p => exact p.finish_audited
  | case2 word p next rest hfilled ih =>
    rw [← ih, ← p.place_audited]
    simp only [take, p.filled_audited, hfilled]
  | case3 word p rest hother ih =>
    rw [← ih, ← p.place_audited, take]
    · exact hother
  | case4 word rest p ih =>
    rw [← ih, take]
    cases hfilled : p.filled <;> simp [hfilled, p.place_audited]
  | case5 word rest p ih =>
    rw [← ih]
    rfl
  | case6 word switch short p htakes rest ih =>
    rw [← ih]
    simp only [take, htakes, if_true, Intake.options_audited, Options.leaveBlank_audited]
    rfl
  | case7 word switch short p htakes value rest hvalue options hassign ih =>
    rw [← ih]
    simp only [take, htakes, if_true, if_neg hvalue, Intake.options_audited,
      Options.assign_audited, hassign]
    rfl
  | case8 word switch short p htakes value rest hvalue e hassign =>
    simp only [take, htakes, if_true, if_neg hvalue, Intake.options_audited,
      Options.assign_audited, hassign]
    rfl
  | case9 word switch short p htakes value rest options hassign ih =>
    rw [← ih]
    simp only [take, htakes, if_true, Intake.options_audited, Options.assign_audited, hassign]
    rfl
  | case10 word switch short p htakes value rest e hassign =>
    simp only [take, htakes, if_true, Intake.options_audited, Options.assign_audited, hassign]
    rfl
  | case11 word switch short rest p htakes hnone =>
    rw [take, if_pos htakes]
    · rfl
    · exact hnone
  | case12 word switch short attached rest p hflag e hflags =>
    rw [take.eq_def]
    simp only [if_neg hflag, hflags]
    rfl
  | case13 word switch short attached rest p hflag switches hflags options hon ih =>
    rw [← ih, take.eq_def]
    simp only [if_neg hflag, hflags, Intake.options_audited, turnOn_audited, hon]
    rfl
  | case14 word switch short attached rest p hflag switches hflags hon =>
    rw [take.eq_def]
    simp only [if_neg hflag, hflags, Intake.options_audited, turnOn_audited, hon]
    rfl

/-- **The word for an audit asks for an audit and for nothing else.** -/
theorem parse_strict (words : List String) :
    parse ("--strict" :: words) = (parse words).map Request.audited := by
  have hlook : look "--strict" = .ok (.option .strict false none) := by rfl
  have hlooks : looks ("--strict" :: words) =
      (looks words).map (("--strict", .option .strict false none) :: ·) := by
    rw [looks, if_neg (by decide), hlook]
    cases looks words <;> rfl
  rw [parse, parse, hlooks]
  cases looks words with
  | error misuse => rfl
  | ok looks =>
    have htake : take (("--strict", .option .strict false none) :: looks) ⟨{}, false, []⟩ =
        take looks (Intake.audited ⟨{}, false, []⟩) := by
      rw [take.eq_def]
      rfl
    exact htake.trans (take_audited looks _)

end PlusLisp.CommandLine
