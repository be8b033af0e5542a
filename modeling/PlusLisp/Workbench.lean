import PlusLisp.Audit
import PlusLisp.Evaluator
import PlusLisp.Program
import PlusLisp.Settings
import PlusLisp.Tree.Edit

/-!
A workbench on which trees are kept under names, tokens queue up to be read, and one evaluator
works under the settings in force. Commands change it and are answered; a command that fails
leaves it as it was, apart from the steps that the evaluator has taken.
-/

namespace PlusLisp

/-- The state of a workbench. -/
structure Workbench where
  trees : List (String × Tree)
  queue : List Token
  evaluator : Evaluator
  store : Store

namespace Workbench

/-- What a workbench can be told. A tree that is handed in may turn out to be a fault. -/
inductive Command where
  | configure (draft : Option Draft)
  | showSettings
  | changeLimits (limits : Limits)
  | renewEvaluator (limits : Option Limits)
  | loadText (name : String) (text : String)
  | loadTree (name : String) (tree : Except Fault Tree)
  | copy (name target : String)
  | push (name : String) (path : List Int) (tree : Except Fault Tree)
  | pop (name : String) (path : List Int)
  | setValue (name : String) (path : List Int) (text : Option String)
  | showTree (name : String)
  | compare (name other : String)
  | feed (text : String)
  | read (name : String)
  | audit (name : String)
  | evaluate (name : String) (depth : Int) (target : Option String)
  | run (name : String) (target : Option String)

/-- What a workbench answers. -/
inductive Reply where
  | settings (settings : Settings)
  | evaluator (evaluator : Evaluator)
  | stored (tree : Tree)
  | shown (tree : Tree)
  | same (answer : Bool)
  | queued (count : Nat)
  | taken (tree : Tree) (queued : Nat)
  | findings (findings : List Finding)
  | evaluation (outcome : Except Fault Tree) (steps : Nat)
  | fault (fault : Fault)
  /-- No tree is kept under the name. -/
  | noTree (name : String)
  /-- The path leads to no node. -/
  | noNode

/-- A reply, with what happened until then. -/
structure Answer where
  reply : Reply
  log : List Event := []

/-- A new workbench, whose evaluator is under the limits in force. -/
def initial (store : Store) : Workbench :=
  let (limits, store) := store.limitsFor none
  ⟨[], [], ⟨limits, 0⟩, store⟩

/-- Keep a tree under a name. -/
def keep (w : Workbench) (name : String) (tree : Tree) : Workbench :=
  { w with trees := (name, tree) :: w.trees.filter (·.1 ≠ name) }

/-- Answer by the tree under a name. -/
def withTree (w : Workbench) (name : String) (answer : Tree → Workbench × Answer) :
    Workbench × Answer :=
  match w.trees.lookup name with
  | some tree => answer tree
  | none => (w, ⟨.noTree name, []⟩)

/-- Keep a new tree under a name, and answer with it. -/
def storeTree (w : Workbench) (name : String) (tree : Tree) (log : List Event) :
    Workbench × Answer :=
  (w.keep name tree, ⟨.stored tree, log⟩)

/-- Keep a tree that is handed in under a name. -/
def loadTree (w : Workbench) (name : String) (tree : Except Fault Tree) : Workbench × Answer :=
  match tree with
  | .ok tree => w.storeTree name tree []
  | .error fault => (w, ⟨.fault fault, []⟩)

/-- Keep the tree of a program text under a name. -/
def loadText (w : Workbench) (name text : String) : Workbench × Answer :=
  let scan := Token.Scan.ofProgram text
  match scan.outcome with
  | .error fault => (w, ⟨.fault fault, scan.log⟩)
  | .ok tokens =>
    let reading := Tree.read tokens
    let log := scan.log ++ reading.log
    match reading.outcome with
    | .error fault => (w, ⟨.fault fault, log⟩)
    | .ok tree => w.storeTree name tree log

/-- Edit the tree under a name at a node. -/
def editTree (w : Workbench) (name : String) (path : List Int) (edit : Tree → Tree) :
    Workbench × Answer :=
  w.withTree name fun tree =>
    match tree.modifyAt? edit path with
    | some tree => w.storeTree name tree []
    | none => (w, ⟨.noNode, []⟩)

/-- Give a node of the tree under a name another value. -/
def setValue (w : Workbench) (name : String) (path : List Int) (text : Option String) :
    Workbench × Answer :=
  w.withTree name fun tree =>
    match tree.subtree? path with
    | none => (w, ⟨.noNode, []⟩)
    | some node =>
      match node.label.withValue text with
      | .ok label => w.editTree name path (.relabel label)
      | .error fault => (w, ⟨.fault fault, []⟩)

/-- Put the tokens of a program text at the end of the queue. -/
def feed (w : Workbench) (text : String) : Workbench × Answer :=
  let scan := Token.Scan.ofProgram text
  match scan.outcome with
  | .error fault => (w, ⟨.fault fault, scan.log⟩)
  | .ok tokens =>
    let w := { w with queue := w.queue ++ tokens }
    (w, ⟨.queued w.queue.length, scan.log⟩)

/-- Read the queue into a tree, and keep it under a name. -/
def readQueue (w : Workbench) (name : String) : Workbench × Answer :=
  let reading := Tree.read w.queue
  let w := { w with queue := reading.rest }
  match reading.outcome with
  | .error fault => (w, ⟨.fault fault, reading.log⟩)
  | .ok tree => (w.keep name tree, ⟨.taken tree w.queue.length, reading.log⟩)

/-- Take note of an evaluation, and keep its value under a name if so asked. -/
def conclude (w : Workbench) (evaluation : Evaluation) (target : Option String) :
    Workbench × Answer :=
  let w := { w with evaluator := w.evaluator.after evaluation }
  let w :=
    match evaluation.outcome, target with
    | .ok tree, some name => w.keep name tree
    | _, _ => w
  (w, ⟨.evaluation evaluation.outcome evaluation.steps, evaluation.log⟩)

/-- Answer with the settings in force in a store, which is kept. -/
def settled (w : Workbench) (store : Store) : Workbench × Answer :=
  let (settings, store) := store.get
  ({ w with store }, ⟨.settings settings, []⟩)

/-- Carry out a command. -/
def perform (w : Workbench) : Command → Workbench × Answer
  | .configure draft => w.settled (w.store.set (draft.map Draft.complete))
  | .showSettings => w.settled w.store
  | .changeLimits limits => w.settled (w.store.setLimits limits)
  | .renewEvaluator limits =>
    let (limits, store) := w.store.limitsFor limits
    let evaluator : Evaluator := ⟨limits, 0⟩
    ({ w with evaluator, store }, ⟨.evaluator evaluator, []⟩)
  | .loadText name text => w.loadText name text
  | .loadTree name tree => w.loadTree name tree
  | .copy name target => w.withTree name fun tree => w.storeTree target tree []
  | .push name path child =>
    match child with
    | .ok child => w.editTree name path (.push child)
    | .error fault => (w, ⟨.fault fault, []⟩)
  | .pop name path => w.editTree name path .pop
  | .setValue name path text => w.setValue name path text
  | .showTree name => w.withTree name fun tree => (w, ⟨.shown tree, []⟩)
  | .compare name other =>
    w.withTree name fun tree => w.withTree other fun tree' => (w, ⟨.same (tree.same tree'), []⟩)
  | .feed text => w.feed text
  | .read name => w.readQueue name
  | .audit name =>
    w.withTree name fun tree => (w, ⟨.findings (Audit.program w.queue tree {}), []⟩)
  | .evaluate name depth target =>
    w.withTree name fun tree => w.conclude (w.evaluator.evaluate tree depth) target
  | .run name target =>
    w.withTree name fun tree => w.conclude (w.evaluator.runProgram tree) target

/-- Carry out commands one after the other. -/
def performAll (w : Workbench) : List Command → List Answer
  | [] => []
  | command :: commands =>
    let (w, answer) := w.perform command
    answer :: performAll w commands

end Workbench

end PlusLisp
