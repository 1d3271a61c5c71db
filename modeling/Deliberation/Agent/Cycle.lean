import Deliberation.Agent.Basic

/-!
# The reasoning cycle

A cycle takes triggers from the front of the queue and answers them one after
the other.  The triggers that plans raise meanwhile are queued at its end.  When
an error ends the cycle early, the triggers that were taken and not yet answered
go back to the front; only the trigger that met the error is used up.
-/

namespace Deliberation

/-- What happened in a cycle that ended well. -/
structure CycleReport where
  /-- The number of the cycle, counted from one. -/
  cycle : Nat
  /-- The triggers that were answered, in order. -/
  processed : List Trigger
  /-- The outcomes of the plans that answered them. -/
  outcomes : List PlanOutcome
  /-- The goals that no plan could handle. -/
  unhandled : List Trigger
  /-- The length of the queue afterwards. -/
  pending : Nat

/-- Whether every goal was handled and every plan succeeded. -/
def CycleReport.isClean (report : CycleReport) : Bool :=
  report.unhandled.isEmpty && report.outcomes.all fun o => o.state = .succeeded

namespace Agent

/-- What has come of the triggers answered so far. -/
structure Progress where
  outcomes : List PlanOutcome := []
  unhandled : List Trigger := []

/-- Note what came of one trigger; a deleted goal or a belief may go unanswered. -/
def Progress.note (progress : Progress) (t : Trigger) : Option PlanOutcome → Progress
  | some outcome => { progress with outcomes := progress.outcomes ++ [outcome] }
  | none =>
      if t.kind = .addGoal then { progress with unhandled := progress.unhandled ++ [t] }
      else progress

/-- What came of a list of triggers, and how far the list was worked off. -/
structure Answered where
  progress : Progress
  /-- Why the work stopped early, if it did. -/
  halt : Option (Halt ExecutionError)
  /-- The triggers behind the one that stopped the work. -/
  left : List Trigger
  world : World

/-- Answer triggers in turn up to the first one that stops the execution. -/
def answer (env : Environment) (depth : Nat) (progress : Progress) (w : World) :
    List Trigger → Answered
  | [] => ⟨progress, none, [], w⟩
  | t :: rest =>
      match Execution.dispatch env depth t w with
      | (.ok outcome, w) => answer env depth (progress.note t outcome) w rest
      | (.error halt, w) => ⟨progress, some halt, rest, w⟩

/-- The world that a cycle starts in. -/
def world (a : Agent) : World where
  host := a.host
  beliefs := a.beliefs
  library := a.library
  enumerations := a.enumerations

/-- The agent after its triggers were answered, with a queue of the given front. -/
def settle (a : Agent) (answered : Answered) (waiting : List Trigger) : Agent :=
  { a with
    host := answered.world.host
    beliefs := answered.world.beliefs
    library := answered.world.library
    pending := answered.left ++ waiting ++ answered.world.emitted
    running := answered.world.instances
    cycles := a.cycles + 1
    enumerations := answered.world.enumerations }

/-- Why a cycle that answered all its triggers is an error after all. -/
def strictError? (a : Agent) (unhandled : List Trigger) : Option AgentError :=
  if a.config.strictGoals then
    unhandled.head?.map fun goal => .unhandledGoal (goal.render a.store)
  else none

/-- Run one cycle, with calls nested at most `depth` deep. -/
def cycle (depth : Nat) (a : Agent) : Except (Halt AgentError) CycleReport × Agent :=
  let processed := a.pending.take a.config.maxTriggersPerCycle
  let waiting := a.pending.drop a.config.maxTriggersPerCycle
  let answered := answer a.environment depth {} a.world processed
  let a := a.settle answered waiting
  match answered.halt with
  | some (.failed e) => (.error (.failed (.execution e)), a)
  | some .outOfDepth => (.error .outOfDepth, a)
  | none =>
      match a.strictError? answered.progress.unhandled with
      | some e => (.error (.failed e), a)
      | none =>
          (.ok
            { cycle := a.cycles
              processed
              outcomes := answered.progress.outcomes
              unhandled := answered.progress.unhandled
              pending := a.pending.length }, a)

/--
Run cycles while triggers wait, `n` at most; an error ends the run.  Each result
comes with the agent after its cycle.
-/
def drain (depth : Nat) : Nat → Agent → List (Except (Halt AgentError) CycleReport × Agent)
  | 0, _ => []
  | n + 1, a =>
      if a.pending.isEmpty then []
      else
        match a.cycle depth with
        | (.error halt, a) => [(.error halt, a)]
        | (.ok report, a) => (.ok report, a) :: drain depth n a

end Agent

end Deliberation
