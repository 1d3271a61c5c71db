import Deliberation.Agent.Config
import Deliberation.Execution.Dispatch

/-!
# Agents

An agent owns its beliefs, plans, rules and actions, and a queue of triggers
that wait for a cycle.  A change of beliefs through the agent queues a trigger
exactly when it is a real change.
-/

namespace Deliberation

/-- What an agent is made from. -/
structure AgentSpec where
  /-- Beliefs held before the first cycle; they raise no triggers. -/
  beliefs : List Literal := []
  /-- A goal for the first cycle. -/
  goal : Option Literal := none
  plans : List Plan := []
  /-- Rules in the order in which they are tried. -/
  rules : List Rule := []
  /-- The orders that the variables of contexts will come in. -/
  enumeration : Enumeration := .inserted

/-- An agent between two cycles. -/
structure Agent where
  config : Config
  rules : List Rule
  actions : ActionRegistry
  pool : Pool
  enumeration : Enumeration
  host : Host
  beliefs : BeliefGraph
  library : PlanLibrary
  /-- The triggers that wait, the oldest first. -/
  pending : List Trigger
  /-- The number of cycles so far. -/
  cycles : Nat
  /-- The plan instances that the last cycle made. -/
  running : List PlanInstance
  /-- How often the variables of a context were enumerated so far. -/
  enumerations : Nat

namespace Agent

/-- Add beliefs in turn to a graph, making the views that are missing. -/
def addBeliefs (heap : Heap) : BeliefGraph → List Literal → Except BeliefError BeliefGraph
  | g, [] => .ok g
  | g, l :: rest => do
      let (_, g) ← g.add heap BeliefGraph.root l (some BeliefGraph.blank)
      addBeliefs heap g rest

/-- Make an agent. -/
def build (config : Config) (spec : AgentSpec) (actions : ActionRegistry) (host : Host) :
    Except AgentError Agent := do
  config.validate
  let beliefs ← (addBeliefs host.store.heap .rooted spec.beliefs).mapError
    fun e => .execution (.belief e)
  pure
    { config
      rules := spec.rules
      actions
      pool := .ofThreads config.workerThreads
      enumeration := spec.enumeration
      host
      beliefs
      library := PlanLibrary.empty.addAll spec.plans
      pending := spec.goal.toList.map fun goal => ⟨.addGoal, goal⟩
      cycles := 0
      running := []
      enumerations := 0 }

def store (a : Agent) : Store := a.host.store

/-- Change the store. -/
def withStore (a : Agent) (s : Store) : Agent := { a with host := { a.host with store := s } }

/-- Queue a trigger. -/
def trigger (a : Agent) (t : Trigger) : Agent := { a with pending := a.pending ++ [t] }

/-- Add a belief.  Tells whether it was new, and then queues a trigger. -/
def addBelief (a : Agent) (l : Literal) : Except AgentError (Bool × Agent) := do
  let (added, beliefs) ←
    (a.beliefs.add a.store.heap BeliefGraph.root l (some BeliefGraph.blank)).mapError
      fun e => AgentError.execution (.belief e)
  let a := { a with beliefs }
  pure (added, if added then a.trigger ⟨.addBelief, l⟩ else a)

/-- Remove a belief.  Tells whether it was held, and then queues a trigger. -/
def removeBelief (a : Agent) (l : Literal) : Bool × Agent :=
  let (removed, beliefs) := a.beliefs.remove a.store.heap BeliefGraph.root l
  let a := { a with beliefs }
  (removed, if removed then a.trigger ⟨.deleteBelief, l⟩ else a)

/-- Remove beliefs in turn. -/
def removeAll (a : Agent) (literals : List Literal) : Agent :=
  literals.foldl (fun a l => (a.removeBelief l).2) a

/-- Add beliefs in turn up to the first error; the beliefs before it stay. -/
def addAll (a : Agent) : List Literal → Except AgentError Unit × Agent
  | [] => (.ok (), a)
  | l :: rest =>
      match a.addBelief l with
      | .ok (_, a) => addAll a rest
      | .error e => (.error e, a)

/-- Take in what was perceived: first what is gone, then what is new. -/
def perceive (a : Agent) (added removed : List Literal) : Except AgentError Unit × Agent :=
  (a.removeAll removed).addAll added

/-- Add a plan.  Tells whether it was new. -/
def addPlan (a : Agent) (p : Plan) : Bool × Agent :=
  let (added, library) := a.library.add p
  (added, { a with library })

/-- Remove the plans with a trigger and count them. -/
def removePlans (a : Agent) (t : Trigger) : Nat × Agent :=
  let (removed, library) := a.library.remove t
  (removed, { a with library })

/-- What the plans of an agent run with. -/
def environment (a : Agent) : Environment where
  actions := a.actions
  rules := a.rules
  strategy := a.config.strategy
  parallelUnification := a.config.parallelUnification
  pool := a.pool
  enumeration := a.enumeration

/-- The text of an agent in a summary. -/
def render (a : Agent) : String :=
  "Agent \x7b name: " ++ Text.quote a.config.name ++
    ", beliefs: " ++ toString (a.beliefs.count BeliefGraph.root) ++
    ", plans: " ++ toString a.library.size ++
    ", rules: " ++ toString a.rules.length ++
    ", pending: " ++ toString a.pending.length ++
    ", cycle_count: " ++ toString a.cycles ++ " \x7d"

end Agent

end Deliberation
