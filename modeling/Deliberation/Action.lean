import Deliberation.Fuzzy
import Deliberation.Table
import Deliberation.Term.Context

/-!
# Actions

Actions are what an agent can do to the world around it.  An action reads its
arguments, which are resolved already, and the context of the caller; it can
change boxes and print, and gives back a fuzzy truth value and results.
-/

namespace Deliberation

/-- What actions can reach: the store, and the lines printed so far. -/
structure Host where
  store : Store := {}
  printed : List String := []

/-- The effects of an action.  What it did before an error stays done. -/
abbrev Acting := ExceptT ExecutionError (StateM Host)

/-- A leaf of a plan body. -/
structure Action where
  name : String
  /-- The fewest arguments that the action takes. -/
  minimalArguments : Nat
  /-- Run the action; the flag tells whether it is a step of a parallel body. -/
  run : Bool → Context → List Term → Acting (Fuzzy Bool × List Term)

namespace Action

/-- The raw value of an argument. -/
def rawArgument (t : Term) : Acting Value := do
  match t.rawValue (← get).store with
  | .ok v => pure v
  | .error e => throw (.term e)

/-- The text that an argument is printed as: a text as it is, anything else as it is written. -/
def printedText (s : Store) (t : Term) : String :=
  match t.rawValue s with
  | .ok (.text text) => text
  | _ => t.render s

/-- Print the arguments on one line with blanks between them. -/
def print : Action where
  name := "generic/print"
  minimalArguments := 0
  run _ _ arguments := do
    modify fun host =>
      { host with
        printed :=
          host.printed ++ [" ".intercalate (arguments.map (printedText host.store))] }
    pure (.truth, [])

/-- The message of an error that is raised on purpose. -/
def thrownMessage (s : Store) : List Term → String
  | [] => "thrown"
  | t :: _ =>
      match t.rawValue s with
      | .ok v =>
          match s.heap.asText v with
          | .ok text => text
          | .error _ => t.render s
      | .error _ => t.render s

/-- Raise an error when the first argument is true; the second one is its message. -/
def throw : Action where
  name := "generic/throw"
  minimalArguments := 1
  run _ _ arguments := do
    match arguments with
    | [] => pure (.truth, [])
    | condition :: rest => do
        let s := (← get).store
        let v ← rawArgument condition
        match s.heap.asBool v with
        | .error e => MonadExcept.throw (.term e)
        | .ok true => MonadExcept.throw (.action "generic/throw" (thrownMessage s rest))
        | .ok false => pure (.truth, [])

end Action

/-- The actions of an agent by name. -/
structure ActionRegistry where
  actions : Table String Action := {}

namespace ActionRegistry

def empty : ActionRegistry := {}

/-- Add an action, or replace the one with its name. -/
def register (registry : ActionRegistry) (action : Action) : ActionRegistry :=
  ⟨registry.actions.insert action.name action⟩

/-- The registry of the actions that every agent may have. -/
def builtins : ActionRegistry := (empty.register .print).register .throw

def get? (registry : ActionRegistry) (name : String) : Option Action :=
  registry.actions.get? name

/-- The names of the actions in order. -/
def names (registry : ActionRegistry) : List String := registry.actions.keys

def size (registry : ActionRegistry) : Nat := registry.actions.size

/-- Run the action with a name, if it is known and gets enough arguments. -/
def execute (registry : ActionRegistry) (name : String) (parallel : Bool) (c : Context)
    (arguments : List Term) : Acting (Fuzzy Bool × List Term) :=
  match registry.get? name with
  | none => throw (.actionNotFound name)
  | some action =>
      if arguments.length < action.minimalArguments then
        throw (.argumentCount name action.minimalArguments arguments.length)
      else action.run parallel c arguments

/-- The text of a registry in a summary. -/
def render (registry : ActionRegistry) : String :=
  "ActionRegistry \x7b actions: [" ++ ", ".intercalate (registry.names.map Text.quote) ++
    "] \x7d"

end ActionRegistry

end Deliberation
