import PlusLisp.Workbench

/-!
The settings in force. A store is filled only when it is first asked, its settings can be changed
in place, and an evaluator that is made without limits of its own asks it for them. None of that
shows: a store answers like a machine that holds complete settings at all times, which only
`Workbench.Command.configure` and `Workbench.Command.changeLimits` change
(`Workbench.inForce_perform`). That machine, `Workbench.Command.settle`, knows nothing of stores or
of how drafts are completed.

A workbench has a single evaluator, which a new one replaces. A `Workshop` keeps all evaluators that
are made there, so that an old one can be used after the settings have changed. Each of them works
under the limits that it was made under (`Workshop.hasLimits_after`).

Main statement: `Workshop.answers_as_if_complete`.
-/

namespace PlusLisp

/-! ### Drafts -/

namespace Draft

/-- The limits that a draft gives, or else none. -/
def givenLimits : Draft → Limits
  | ⟨some limits, _, _⟩ => limits
  | ⟨none, _, _⟩ => ⟨none, none⟩

/-- The bounds that a draft gives, or else the usual ones. -/
def givenBounds : Draft → Bounds
  | ⟨_, some bounds, _⟩ => bounds
  | ⟨_, none, _⟩ => ⟨200, 100000⟩

/-- A draft is completed part by part, and keeps all that it gives. -/
theorem complete_eq (draft : Draft) :
    draft.complete = ⟨draft.givenLimits, draft.givenBounds, draft.logLevel⟩ := by
  obtain ⟨limits, bounds, logLevel⟩ := draft
  cases limits <;> cases bounds <;> rfl

end Draft

/-! ### Stores -/

namespace Store

/-- The settings in force, which are the defaults as long as a store is empty. -/
def inForce (store : Store) : Settings := store.get.1

@[simp] theorem inForce_empty : empty.inForce = {} := rfl

/-- To be filled changes nothing about a store that anybody sees. -/
@[simp] theorem inForce_get (store : Store) : store.get.2.inForce = store.inForce := by
  obtain ⟨held⟩ := store
  cases held <;> rfl

@[simp] theorem inForce_set (store : Store) (settings : Option Settings) :
    (store.set settings).inForce = settings.getD {} := by
  cases settings <;> rfl

/-- Once a store has been asked, it holds the settings in force. -/
theorem held_get (store : Store) : store.get.2.held = some store.inForce := by
  obtain ⟨held⟩ := store
  cases held <;> rfl

@[simp] theorem inForce_setLimits (store : Store) (limits : Limits) :
    (store.setLimits limits).inForce = { store.inForce with limits } := by
  rw [setLimits, amend, store.held_get]
  rfl

@[simp] theorem inForce_limitsFor (store : Store) (limits : Option Limits) :
    (store.limitsFor limits).2.inForce = store.inForce := by
  cases limits with
  | none => exact store.inForce_get
  | some limits => rfl

theorem limitsFor_fst (store : Store) (limits : Option Limits) :
    (store.limitsFor limits).1 = limits.getD store.inForce.limits := by
  cases limits <;> rfl

end Store

/-! ### Workbenches -/

namespace Workbench

/-- What a command makes of complete settings: a draft overwrites them, and so do the usual settings
if there is no draft; limits overwrite limits. -/
def Command.settle (settings : Settings) : Command → Settings
  | configure none => ⟨⟨none, none⟩, ⟨200, 100000⟩, "WARNING"⟩
  | configure (some draft) => ⟨draft.givenLimits, draft.givenBounds, draft.logLevel⟩
  | changeLimits limits => ⟨limits, settings.bounds, settings.logLevel⟩
  | _ => settings

/-- Holds of the commands that change settings. -/
def Command.writes : Command → Bool
  | configure _ | changeLimits _ => true
  | _ => false

/-- Holds of the commands that make a new evaluator. -/
def Command.renews : Command → Bool
  | renewEvaluator _ => true
  | _ => false

/-- Holds of the commands that look at settings or make an evaluator. -/
def Command.concernsTerms : Command → Bool
  | configure _ | showSettings | changeLimits _ | renewEvaluator _ => true
  | _ => false

/-- Two workbenches with the same store, and with evaluators under the same limits. -/
structure OnSameTerms (w w' : Workbench) : Prop where
  store : w'.store = w.store
  limits : w'.evaluator.limits = w.evaluator.limits

section Terms

variable {w : Workbench}

theorem onSameTerms_withTree {name : String} {answer : Tree → Workbench × Answer}
    (h : ∀ tree, w.OnSameTerms (answer tree).1) : w.OnSameTerms (w.withTree name answer).1 := by
  unfold withTree
  cases w.trees.lookup name with
  | none => exact ⟨rfl, rfl⟩
  | some tree => exact h tree

theorem onSameTerms_loadText (name text : String) : w.OnSameTerms (w.loadText name text).1 := by
  cases hscan : (Token.Scan.ofProgram text).outcome with
  | error fault =>
    simp only [loadText, hscan]
    exact ⟨rfl, rfl⟩
  | ok tokens =>
    cases hread : (Tree.read tokens).outcome <;> simp only [loadText, hscan, hread] <;>
      exact ⟨rfl, rfl⟩

theorem onSameTerms_loadTree (name : String) (tree : Except Fault Tree) :
    w.OnSameTerms (w.loadTree name tree).1 := by
  cases tree <;> exact ⟨rfl, rfl⟩

theorem onSameTerms_editTree (name : String) (path : List Int) (edit : Tree → Tree) :
    w.OnSameTerms (w.editTree name path edit).1 := by
  refine onSameTerms_withTree fun tree => ?_
  cases tree.modifyAt? edit path <;> exact ⟨rfl, rfl⟩

theorem onSameTerms_setValue (name : String) (path : List Int) (text : Option String) :
    w.OnSameTerms (w.setValue name path text).1 := by
  refine onSameTerms_withTree fun tree => ?_
  cases tree.subtree? path with
  | none => exact ⟨rfl, rfl⟩
  | some node =>
    simp only
    cases node.label.withValue text with
    | error fault => exact ⟨rfl, rfl⟩
    | ok label => exact onSameTerms_editTree name path _

theorem onSameTerms_feed (text : String) : w.OnSameTerms (w.feed text).1 := by
  cases hscan : (Token.Scan.ofProgram text).outcome <;> simp only [feed, hscan] <;>
    exact ⟨rfl, rfl⟩

theorem onSameTerms_readQueue (name : String) : w.OnSameTerms (w.readQueue name).1 := by
  cases hread : (Tree.read w.queue).outcome <;> simp only [readQueue, hread] <;> exact ⟨rfl, rfl⟩

theorem onSameTerms_conclude (evaluation : Evaluation) (target : Option String) :
    w.OnSameTerms (w.conclude evaluation target).1 := by
  unfold conclude
  cases evaluation.outcome <;> cases target <;> exact ⟨rfl, rfl⟩

end Terms

/-- Other commands leave the store and the limits of the evaluator as they are. -/
theorem onSameTerms_perform (w : Workbench) {command : Command}
    (h : command.concernsTerms = false) : w.OnSameTerms (w.perform command).1 := by
  cases command with
  | configure | showSettings | changeLimits | renewEvaluator => cases h
  | loadText name text => exact onSameTerms_loadText name text
  | loadTree name tree => exact onSameTerms_loadTree name tree
  | copy name target => exact onSameTerms_withTree fun tree => ⟨rfl, rfl⟩
  | push name path child =>
    cases child with
    | error fault => exact ⟨rfl, rfl⟩
    | ok child => exact onSameTerms_editTree name path _
  | pop name path => exact onSameTerms_editTree name path _
  | setValue name path text => exact onSameTerms_setValue name path text
  | showTree name => exact onSameTerms_withTree fun tree => ⟨rfl, rfl⟩
  | compare name other =>
    exact onSameTerms_withTree fun tree => onSameTerms_withTree fun tree' => ⟨rfl, rfl⟩
  | feed text => exact onSameTerms_feed text
  | read name => exact onSameTerms_readQueue name
  | audit name => exact onSameTerms_withTree fun tree => ⟨rfl, rfl⟩
  | evaluate name depth target =>
    exact onSameTerms_withTree fun tree => onSameTerms_conclude _ target
  | run name target => exact onSameTerms_withTree fun tree => onSameTerms_conclude _ target

/-- A command makes of the settings in force what it makes of complete settings. -/
theorem inForce_perform (w : Workbench) (command : Command) :
    (w.perform command).1.store.inForce = command.settle w.store.inForce := by
  cases command with
  | configure draft =>
    refine (Store.inForce_get _).trans ((Store.inForce_set _ _).trans ?_)
    cases draft with
    | none => rfl
    | some draft => exact draft.complete_eq
  | showSettings => exact Store.inForce_get _
  | changeLimits limits => exact (Store.inForce_get _).trans (Store.inForce_setLimits _ _)
  | renewEvaluator limits => exact Store.inForce_limitsFor _ _
  | loadText | loadTree | copy | push | pop | setValue | showTree | compare | feed | read | audit
  | evaluate | run =>
    rw [(w.onSameTerms_perform rfl).store]
    rfl

/-- A new evaluator is under the limits that are given, or else under those in force. -/
theorem limits_renewEvaluator (w : Workbench) (limits : Option Limits) :
    (w.perform (.renewEvaluator limits)).1.evaluator.limits =
      limits.getD w.store.inForce.limits :=
  w.store.limitsFor_fst limits

/-- Only a new evaluator is under other limits. -/
theorem limits_perform (w : Workbench) {command : Command}
    (h : command.renews = false) :
    (w.perform command).1.evaluator.limits = w.evaluator.limits := by
  cases command with
  | configure | showSettings | changeLimits => rfl
  | renewEvaluator limits => cases h
  | loadText | loadTree | copy | push | pop | setValue | showTree | compare | feed | read | audit
  | evaluate | run => exact (w.onSameTerms_perform rfl).limits

/-- What commands make of complete settings, one after the other. -/
def Command.settleAll (settings : Settings) (commands : List Command) : Settings :=
  commands.foldl Command.settle settings

/-- Only the commands that change settings matter. -/
theorem Command.settleAll_filter (settings : Settings) (commands : List Command) :
    settleAll settings (commands.filter writes) = settleAll settings commands := by
  induction commands generalizing settings with
  | nil => rfl
  | cons command commands ih =>
    cases command with
    | configure draft => exact ih _
    | changeLimits limits => exact ih _
    | showSettings | renewEvaluator | loadText | loadTree | copy | push | pop | setValue | showTree
    | compare | feed | read | audit | evaluate | run => exact ih settings

end Workbench

/-! ### Workshops -/

/-- A workbench, and all evaluators that have been made at it, in the order in which they were
made. -/
structure Workshop where
  bench : Workbench
  evaluators : List Evaluator

namespace Workshop

open Workbench (Command Answer)

/-- The workbench with the evaluator of a number at hand. A number that no evaluator has leaves the
one at hand that was there last. -/
def takeUp (w : Workshop) (number : Nat) : Workbench :=
  { w.bench with evaluator := w.evaluators.getD number w.bench.evaluator }

/-- The evaluators after a command has been carried out with the one of a number at hand: it has
taken steps, or a new one has been made. -/
def putBack (w : Workshop) (number : Nat) (evaluator : Evaluator) (command : Command) :
    List Evaluator :=
  if command.renews then w.evaluators ++ [evaluator] else w.evaluators.set number evaluator

/-- Carry out a command with the evaluator of a number at hand. -/
def perform (w : Workshop) (number : Nat) (command : Command) : Workshop × Answer :=
  let (bench, answer) := (w.takeUp number).perform command
  (⟨bench, w.putBack number bench.evaluator command⟩, answer)

/-- The workshop after commands, each with the number of an evaluator. -/
def after (w : Workshop) (requests : List (Nat × Command)) : Workshop :=
  requests.foldl (fun w request => (w.perform request.1 request.2).1) w

/-- The settings in force. -/
def inForce (w : Workshop) : Settings := w.bench.store.inForce

theorem after_cons (w : Workshop) (request : Nat × Command) (requests : List (Nat × Command)) :
    w.after (request :: requests) = (w.perform request.1 request.2).1.after requests := rfl

theorem inForce_after (w : Workshop) (requests : List (Nat × Command)) :
    (w.after requests).inForce = Command.settleAll w.inForce (requests.map Prod.snd) := by
  induction requests generalizing w with
  | nil => rfl
  | cons request requests ih =>
    obtain ⟨number, command⟩ := request
    rw [after_cons, ih]
    exact congrArg (Command.settleAll · _) ((w.takeUp number).inForce_perform command)

/-- The answer to who asks for the settings. -/
theorem reply_showSettings (w : Workshop) (number : Nat) :
    (w.perform number .showSettings).2 = ⟨.settings w.inForce, []⟩ := rfl

/-! ### Evaluators -/

theorem evaluators_perform (w : Workshop) (number : Nat) (command : Command) :
    (w.perform number command).1.evaluators =
      w.putBack number ((w.takeUp number).perform command).1.evaluator command := rfl

/-- The evaluator of a number has been made, and it is under the given limits. -/
def HasLimits (w : Workshop) (number : Nat) (limits : Limits) : Prop :=
  ∃ steps, w.evaluators[number]? = some ⟨limits, steps⟩

variable {w : Workshop} {number : Nat} {limits : Limits}

theorem HasLimits.evaluator_takeUp (h : w.HasLimits number limits) :
    (w.takeUp number).evaluator.limits = limits := by
  obtain ⟨steps, hsteps⟩ := h
  rw [takeUp, List.getD_eq_getElem?_getD, hsteps]
  rfl

/-- No command changes the limits of an evaluator that has been made. -/
theorem HasLimits.perform (h : w.HasLimits number limits) (other : Nat) (command : Command) :
    (w.perform other command).1.HasLimits number limits := by
  have hheld := h.evaluator_takeUp
  obtain ⟨steps, hsteps⟩ := h
  obtain ⟨hnumber, -⟩ := List.getElem?_eq_some_iff.mp hsteps
  rw [HasLimits, evaluators_perform, putBack]
  cases hrenews : command.renews with
  | true =>
    refine ⟨steps, ?_⟩
    rw [if_pos rfl, List.getElem?_append_left hnumber, hsteps]
  | false =>
    rw [if_neg Bool.false_ne_true]
    by_cases hother : other = number
    · subst hother
      rw [List.getElem?_set_self hnumber, ← hheld, ← (w.takeUp other).limits_perform hrenews]
      exact ⟨_, rfl⟩
    · rw [List.getElem?_set_ne hother]
      exact ⟨steps, hsteps⟩

theorem HasLimits.after (h : w.HasLimits number limits) (requests : List (Nat × Command)) :
    (w.after requests).HasLimits number limits := by
  induction requests generalizing w with
  | nil => exact h
  | cons request requests ih => exact ih (h.perform request.1 request.2)

/-- A new evaluator has the next number, and it is under the limits that are given, or else under
those in force. -/
theorem hasLimits_renewEvaluator (w : Workshop) (number : Nat) (limits : Option Limits) :
    (w.perform number (.renewEvaluator limits)).1.HasLimits w.evaluators.length
      (limits.getD w.inForce.limits) := by
  have hinForce : w.inForce = (w.takeUp number).store.inForce := rfl
  have hrenews : (Command.renewEvaluator limits).renews = true := rfl
  rw [HasLimits, evaluators_perform, putBack, if_pos hrenews, List.getElem?_concat_length,
    hinForce, ← (w.takeUp number).limits_renewEvaluator limits]
  exact ⟨_, rfl⟩

/-- What an evaluation is answered with. -/
def answerOf (evaluation : Evaluation) : Answer :=
  ⟨.evaluation evaluation.outcome evaluation.steps, evaluation.log⟩

/-- The evaluator of a number evaluates every tree that is kept, and runs every program, under the
given limits. -/
def WorksUnder (w : Workshop) (number : Nat) (limits : Limits) : Prop :=
  ∃ steps, ∀ name tree target, w.bench.trees.lookup name = some tree →
    (∀ depth, (w.perform number (.evaluate name depth target)).2 =
      answerOf ((Evaluator.mk limits steps).evaluate tree depth)) ∧
    (w.perform number (.run name target)).2 =
      answerOf ((Evaluator.mk limits steps).runProgram tree)

theorem HasLimits.worksUnder (h : w.HasLimits number limits) : w.WorksUnder number limits := by
  rw [← h.evaluator_takeUp]
  refine ⟨(w.takeUp number).evaluator.steps, fun name tree target hname => ?_⟩
  have htree : (w.takeUp number).trees.lookup name = some tree := hname
  constructor
  · intro depth
    simp only [Workshop.perform, Workbench.perform, Workbench.withTree, htree]
    rfl
  · simp only [Workshop.perform, Workbench.perform, Workbench.withTree, htree]
    rfl

/-- **Settings are always complete, and evaluators keep their limits.** An empty store stands for
the defaults. Who asks for the settings is answered by what the commands so far made of complete
settings (`Workbench.Command.settle`). Two sequences of commands with the same writing commands in them, whatever else happened
and whichever evaluators were used, leave the same answer. An evaluator that is made under limits of
its own, or under those in force, works under these whatever commands come after it. -/
theorem answers_as_if_complete (w : Workshop) :
    Store.empty.inForce = ⟨⟨none, none⟩, ⟨200, 100000⟩, "WARNING"⟩ ∧
    (∀ requests number, ((w.after requests).perform number .showSettings).2.reply =
      .settings (Command.settleAll w.inForce (requests.map Prod.snd))) ∧
    (∀ requests requests' : List (Nat × Command),
      (requests.map Prod.snd).filter Command.writes =
        (requests'.map Prod.snd).filter Command.writes →
      ∀ number number', ((w.after requests).perform number .showSettings).2 =
        ((w.after requests').perform number' .showSettings).2) ∧
    ∀ before number limits later,
      (((w.after before).perform number (.renewEvaluator limits)).1.after later).WorksUnder
        (w.after before).evaluators.length
        (limits.getD (Command.settleAll w.inForce (before.map Prod.snd)).limits) := by
  refine ⟨Store.inForce_empty, ?_, ?_, ?_⟩
  · intro requests number
    rw [reply_showSettings, inForce_after]
  · intro requests requests' hwrites number number'
    rw [reply_showSettings, reply_showSettings, inForce_after, inForce_after,
      ← Command.settleAll_filter, hwrites, Command.settleAll_filter]
  · intro before number limits later
    rw [← inForce_after]
    exact ((hasLimits_renewEvaluator _ number limits).after later).worksUnder

/-- Drafts that leave parts open keep what they give. Limits that are changed in place are shown, even
if the store was empty before. An evaluator that was made while 9 steps were allowed is still under
that limit after a reset and another change. -/
theorem answers_as_if_complete_partly :
    let w : Workshop := ⟨⟨[], [], ⟨{}, 0⟩, .empty⟩, []⟩
    let limited : Nat × Command :=
      (0, .configure (some { limits := some ⟨none, some 9⟩, logLevel := "INFO" }))
    let bounded : Nat × Command := (0, .configure (some { bounds := some ⟨5, 6⟩ }))
    let reset : Nat × Command := (0, .configure none)
    let change : Nat × Command := (0, .changeLimits ⟨some 4, none⟩)
    let w' := w.after [limited, (0, .renewEvaluator none), reset, change]
    ((w.after [limited]).perform 0 .showSettings).2.reply =
      .settings ⟨⟨none, some 9⟩, ⟨200, 100000⟩, "INFO"⟩ ∧
    ((w.after [limited, bounded]).perform 0 .showSettings).2.reply =
      .settings ⟨⟨none, none⟩, ⟨5, 6⟩, "WARNING"⟩ ∧
    ((w.after [change]).perform 0 .showSettings).2.reply =
      .settings ⟨⟨some 4, none⟩, ⟨200, 100000⟩, "WARNING"⟩ ∧
    (w'.perform 0 .showSettings).2 =
      ((w.after [(0, .showSettings), limited, reset, (0, .showSettings), change]).perform 1
        .showSettings).2 ∧
    w'.WorksUnder 0 ⟨none, some 9⟩ := by
  intro w limited bounded reset change w'
  obtain ⟨-, hanswer, hsame, hkeeps⟩ := answers_as_if_complete w
  exact ⟨hanswer [limited] 0, hanswer [limited, bounded] 0, hanswer [change] 0, hsame _ _ rfl 0 1,
    hkeeps [limited] 0 none [reset, change]⟩

end Workshop

end PlusLisp
