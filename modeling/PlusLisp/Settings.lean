import PlusLisp.Audit
import PlusLisp.Limits

/-!
Settings: the limits of evaluations, the bounds of audits, and the severity from which on the
journal is shown. A store holds the settings in force. It starts empty and is filled with the
defaults when the settings are first asked for, which no answer shows. From then on the settings
that were handed out are those that it holds, so that they can be changed in place.
-/

namespace PlusLisp

/-- The settings of a program. -/
structure Settings where
  limits : Limits := {}
  bounds : Bounds := {}
  logLevel : String := "WARNING"
  deriving DecidableEq, Repr

/-- Settings of which parts may be left open. -/
structure Draft where
  limits : Option Limits := none
  bounds : Option Bounds := none
  logLevel : String := "WARNING"
  deriving DecidableEq, Repr

/-- The settings of a draft, with the defaults for what it leaves open. -/
def Draft.complete (draft : Draft) : Settings :=
  ⟨draft.limits.getD {}, draft.bounds.getD {}, draft.logLevel⟩

/-- A store of the settings in force. -/
structure Store where
  held : Option Settings := none
  deriving DecidableEq, Repr

namespace Store

/-- The store that nothing has been put into. -/
def empty : Store := {}

/-- The settings in force, and the store that holds them from now on. -/
def get (store : Store) : Settings × Store :=
  match store.held with
  | some settings => (settings, store)
  | none => ({}, ⟨some {}⟩)

/-- Put new settings into force, or empty the store. -/
def set (_ : Store) (settings : Option Settings) : Store := ⟨settings⟩

/-- Change the limits of the settings that a store holds, and nothing else. An empty store holds
nothing that could be changed. -/
def amend (store : Store) (limits : Limits) : Store :=
  ⟨store.held.map fun settings => { settings with limits }⟩

/-- Ask for the settings in force, and change their limits in place. -/
def setLimits (store : Store) (limits : Limits) : Store := store.get.2.amend limits

/-- The limits that an evaluation is under: those given, or else those in force. -/
def limitsFor (store : Store) : Option Limits → Limits × Store
  | some limits => (limits, store)
  | none => (store.get.1.limits, store.get.2)

end Store

end PlusLisp
