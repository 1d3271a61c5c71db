import Deliberation.Action
import Deliberation.Belief.Listing
import Deliberation.Matching.Unifier
import Deliberation.Plan.Library

/-!
# The world of an execution

What does not change while plans run is the environment; what does is the world.
Effects on the world stay when an error ends the run.  A step also changes the
context that it runs in, and so it works on a frame, which is a world with a
context.

Plans may ask for goals and rules may call rules without end.  An execution is
therefore given a bound on the depth of such calls, and reaching the bound is
told apart from every error.
-/

namespace Deliberation

/-- The state that a plan instance has reached. -/
inductive PlanState where
  | instantiated
  | guardChecked
  | executing
  | succeeded
  | failed
deriving DecidableEq

namespace PlanState

def name : PlanState → String
  | instantiated => "Instantiated"
  | guardChecked => "GuardChecked"
  | executing => "Executing"
  | succeeded => "Succeeded"
  | failed => "Failed"

end PlanState

/-- A plan that was bound to an event. -/
structure PlanInstance where
  plan : Plan
  event : Trigger
  state : PlanState

/-- What came of a plan that was executed. -/
structure PlanOutcome where
  plan : Plan
  event : Trigger
  state : PlanState
  /-- The result of the steps that ran. -/
  result : Fuzzy Bool
  /-- The result that the caller sees. -/
  reported : Fuzzy Bool
  /-- The number of steps that ran. -/
  executed : Nat

/--
The orders in which the variables of a context come when they are enumerated.  A
context is a map, so nothing says what order they come in, nor that they come in
the same one again: it may be another order each time.
-/
structure Enumeration where
  /-- The order of variables, given how many enumerations there were before. -/
  order : Nat → List Variable → List Variable
  perm : ∀ time vars, (order time vars).Perm vars

/-- Variables come in the order in which they came in. -/
def Enumeration.inserted : Enumeration := ⟨fun _ vars => vars, fun _ vars => .refl vars⟩

/-- What plans run with. -/
structure Environment where
  actions : ActionRegistry := {}
  rules : List Rule := []
  strategy : Strategy := .crisp
  parallelUnification : Bool := false
  pool : Pool := .ofThreads 1
  enumeration : Enumeration := .inserted

namespace Environment

/-- The unifier that plans use. -/
def unifier (env : Environment) : Unifier := ⟨env.strategy, some env.pool⟩

/-- The text of an environment in a summary. -/
def render (env : Environment) : String :=
  "Runtime \x7b defuzzify: " ++ env.strategy.render ++ ", parallel_unification: " ++
    (if env.parallelUnification then "true" else "false") ++ ", pool: " ++ env.pool.render ++
    " \x7d"

end Environment

/-- What plans change. -/
structure World where
  host : Host := {}
  beliefs : BeliefGraph := .rooted
  library : PlanLibrary := {}
  /-- The triggers raised so far. -/
  emitted : List Trigger := []
  /-- The plan instances made so far. -/
  instances : List PlanInstance := []
  /-- How often the variables of a context were enumerated so far. -/
  enumerations : Nat := 0

/-- A world and the context of the steps that run in it. -/
structure Frame where
  world : World
  context : Context

/-- Why an execution stopped: an error, or the bound on the depth of calls. -/
inductive Halt (ε : Type) where
  | failed (cause : ε)
  | outOfDepth

/-- Executions in a world. -/
abbrev Exec := ExceptT (Halt ExecutionError) (StateM World)

/-- Executions in a world and a context. -/
abbrev StepExec := ExceptT (Halt ExecutionError) (StateM Frame)

namespace World

/-- Change the store. -/
def withStore (w : World) (s : Store) : World := { w with host := { w.host with store := s } }

def store (w : World) : Store := w.host.store

/-- Raise a trigger. -/
def emit (w : World) (t : Trigger) : World := { w with emitted := w.emitted ++ [t] }

/-- Count one more enumeration of variables. -/
def countEnumeration (w : World) : World := { w with enumerations := w.enumerations + 1 }

/-- Set the state of the instance with an index. -/
def setState (w : World) (index : Nat) (state : PlanState) : World :=
  { w with instances := w.instances.modify index fun i => { i with state } }

end World

namespace Exec

/-- Run an operation on the store. -/
def onStore {α : Type} (operation : StateM Store α) : Exec α :=
  modifyGet fun w =>
    let (result, s) := operation w.store
    (result, w.withStore s)

/-- Stop with an error. -/
def fail {α : Type} (e : ExecutionError) : Exec α := throw (.failed e)

/-- Raise a trigger. -/
def emit (t : Trigger) : Exec Unit := modify fun w => w.emit t

/-- The variables of a context in the order of the next enumeration. -/
def enumerate (env : Environment) (c : Context) : Exec (List Variable) :=
  modifyGet fun w => (env.enumeration.order w.enumerations c.vars, w.countEnumeration)

end Exec

namespace StepExec

/-- Stop with an error. -/
def fail {α : Type} (e : ExecutionError) : StepExec α := throw (.failed e)

/-- The result of a computation without effects. -/
def ofExcept {α : Type} (result : Except ExecutionError α) : StepExec α :=
  match result with
  | .ok a => pure a
  | .error e => fail e

/-- Run an execution in the world of a frame. -/
def onWorld {α : Type} (execution : Exec α) : StepExec α := do
  let frame ← get
  let (result, world) := execution frame.world
  set { frame with world }
  match result with
  | .ok a => pure a
  | .error halt => throw halt

/-- Run an operation that writes to the context. -/
def writing {α : Type} (operation : Context.Writing α) : StepExec α := do
  let frame ← get
  let (result, scope) := operation ⟨frame.world.store, frame.context⟩
  set (Frame.mk (frame.world.withStore scope.store) scope.context)
  match result with
  | .ok a => pure a
  | .error e => fail (.term e)

/-- Run steps in a context of their own, and tell the context afterwards. -/
def inContext {α : Type} (context : Context) (steps : StepExec α) : Exec (α × Context) := do
  let (result, frame) := steps ⟨← get, context⟩
  set frame.world
  match result with
  | .ok a => pure (a, frame.context)
  | .error halt => throw halt

end StepExec

end Deliberation
