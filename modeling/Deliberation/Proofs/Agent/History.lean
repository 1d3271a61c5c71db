import Deliberation.Agent.Cycle
import Deliberation.Proofs.Execution.Following

/-!
# The history of the trigger queue

A history keeps, beside an agent, every trigger that was ever put at the back of
its queue and every trigger that a cycle handed to the plans.  What was handed
over, followed by what still waits, is at any time what was put in: no trigger
is lost, doubled or overtaken, however the cycles end.
-/

namespace Deliberation

/-- One trigger that a cycle handed to the plans, and what came of it for the queue. -/
structure Dispatch where
  trigger : Trigger
  /-- The triggers that plans raised meanwhile, in order. -/
  raised : List Trigger
  /-- Why the execution stopped, if it did. -/
  halt : Option (Halt ExecutionError)

/-- What an agent can be asked for. -/
inductive Request where
  | trigger (t : Trigger)
  | addBelief (l : Literal)
  | removeBelief (l : Literal)
  | perceive (added removed : List Literal)
  /-- A cycle, with calls nested at most `depth` deep. -/
  | cycle (depth : Nat)

namespace Agent

/-! ## What a request does to the queue -/

/-- The triggers that are handed over in turn, up to one that stops the execution. -/
def dispatchesFrom (env : Environment) (depth : Nat) (w : World) : List Trigger → List Dispatch
  | [] => []
  | t :: rest =>
      match Execution.dispatch env depth t w with
      | (.ok _, after) =>
          ⟨t, after.emitted.drop w.emitted.length, none⟩ :: dispatchesFrom env depth after rest
      | (.error halt, after) => [⟨t, after.emitted.drop w.emitted.length, some halt⟩]

/-- The triggers that a cycle hands over. -/
def dispatches (a : Agent) (depth : Nat) : List Dispatch :=
  dispatchesFrom a.environment depth a.world (a.pending.take a.config.maxTriggersPerCycle)

/-- The trigger for a belief that is new. -/
def raisedByAdding (a : Agent) (l : Literal) : List Trigger :=
  match a.addBelief l with
  | .ok (true, _) => [⟨.addBelief, l⟩]
  | _ => []

/-- The trigger for a belief that was held. -/
def raisedByRemoving (a : Agent) (l : Literal) : List Trigger :=
  if (a.removeBelief l).1 then [⟨.deleteBelief, l⟩] else []

/-- The triggers for the new ones among beliefs that are added in turn. -/
def raisedByAddingAll (a : Agent) : List Literal → List Trigger
  | [] => []
  | l :: rest =>
      match a.addBelief l with
      | .ok (_, after) => a.raisedByAdding l ++ raisedByAddingAll after rest
      | .error _ => []

/-- The triggers for those held among beliefs that are removed in turn. -/
def raisedByRemovingAll (a : Agent) : List Literal → List Trigger
  | [] => []
  | l :: rest => a.raisedByRemoving l ++ raisedByRemovingAll (a.removeBelief l).2 rest

/-- The triggers that a request puts at the back of the queue, in order. -/
def raisedBy (a : Agent) : Request → List Trigger
  | .trigger t => [t]
  | .addBelief l => a.raisedByAdding l
  | .removeBelief l => a.raisedByRemoving l
  | .perceive added removed =>
      a.raisedByRemovingAll removed ++ (a.removeAll removed).raisedByAddingAll added
  | .cycle depth => (a.dispatches depth).flatMap Dispatch.raised

/-- The triggers that a request hands to the plans, in order. -/
def handedBy (a : Agent) : Request → List Trigger
  | .cycle depth => (a.dispatches depth).map Dispatch.trigger
  | _ => []

/-- The agent after a request. -/
def after (a : Agent) : Request → Agent
  | .trigger t => a.trigger t
  | .addBelief l =>
      match a.addBelief l with
      | .ok (_, changed) => changed
      | .error _ => a
  | .removeBelief l => (a.removeBelief l).2
  | .perceive added removed => (a.perceive added removed).2
  | .cycle depth => (a.cycle depth).2

end Agent

/-- An agent with all that was ever queued and handed over. -/
structure History where
  agent : Agent
  /-- Every trigger that was put at the back of the queue. -/
  appended : List Trigger
  /-- Every trigger that a cycle handed to the plans. -/
  dispatched : List Trigger

namespace History

/-- The history of an agent whose queue was filled and not touched yet. -/
def start (a : Agent) : History := ⟨a, a.pending, []⟩

/-- A history continued by one request. -/
def next (h : History) (r : Request) : History :=
  ⟨h.agent.after r, h.appended ++ h.agent.raisedBy r, h.dispatched ++ h.agent.handedBy r⟩

/-- A history continued by requests in turn. -/
def run (h : History) (requests : List Request) : History := requests.foldl next h

end History

namespace Agent

/-- An agent that was just built has the beliefs of its specification and nothing done yet. -/
theorem eq_of_build {config : Config} {spec : AgentSpec} {actions : ActionRegistry}
    {host : Host} {a : Agent} (hbuild : build config spec actions host = .ok a) :
    ∃ beliefs, addBeliefs host.store.heap .rooted spec.beliefs = .ok beliefs ∧
      a =
        { config
          rules := spec.rules
          actions
          pool := .ofThreads config.workerThreads
          enumeration := spec.enumeration
          host
          beliefs
          library := PlanLibrary.empty.addAll spec.plans
          pending := spec.goal.toList.map fun goal => ⟨.addGoal, goal⟩
          cycles := 0
          running := []
          enumerations := 0 } := by
  unfold build at hbuild
  cases hvalid : config.validate with
  | error e =>
      rw [hvalid] at hbuild
      cases hbuild
  | ok valid =>
      rw [hvalid] at hbuild
      cases hbeliefs : addBeliefs host.store.heap .rooted spec.beliefs with
      | error e =>
          rw [hbeliefs] at hbuild
          cases hbuild
      | ok beliefs =>
          rw [hbeliefs] at hbuild
          cases hbuild
          exact ⟨beliefs, rfl, rfl⟩

/-! ## The triggers of a cycle -/

/-- A trigger of a cycle is handed over, or it is left behind one that stopped the cycle. -/
theorem dispatchesFrom_append_left (env : Environment) (depth : Nat) (progress : Progress)
    (w : World) (triggers : List Trigger) :
    (dispatchesFrom env depth w triggers).map Dispatch.trigger ++
      (answer env depth progress w triggers).left = triggers := by
  induction triggers generalizing progress w with
  | nil => rfl
  | cons t rest ih =>
      unfold dispatchesFrom answer
      cases Execution.dispatch env depth t w with
      | mk result after =>
          cases result with
          | ok outcome => simpa using ih (progress.note t outcome) after
          | error halt => rfl

/-- The triggers raised in a cycle are those raised while one trigger after the other ran. -/
theorem emitted_answer (env : Environment) (depth : Nat) (progress : Progress) (w : World)
    (triggers : List Trigger) :
    (answer env depth progress w triggers).world.emitted =
      w.emitted ++ (dispatchesFrom env depth w triggers).flatMap Dispatch.raised := by
  induction triggers generalizing progress w with
  | nil => simp [answer, dispatchesFrom]
  | cons t rest ih =>
      have hprefix := (Execution.dispatch_follows env depth t w).emitted_grows
      unfold dispatchesFrom answer
      cases hdispatch : Execution.dispatch env depth t w with
      | mk result after =>
          rw [hdispatch] at hprefix
          have hraised : w.emitted ++ after.emitted.drop w.emitted.length = after.emitted :=
            List.prefix_iff_eq_append.1 hprefix
          cases result with
          | ok outcome => simp [ih, ← List.append_assoc, hraised]
          | error halt => simp [hraised]

/-- The answers to triggers take one course through the world. -/
theorem answer_follows (env : Environment) (depth : Nat) (progress : Progress) (w : World)
    (triggers : List Trigger) :
    Course env.actions (.ofHalt (answer env depth progress w triggers).halt) w
      (answer env depth progress w triggers).world := by
  induction triggers generalizing progress w with
  | nil => exact .refl w
  | cons t rest ih =>
      have hcourse := Execution.dispatch_follows env depth t w
      unfold answer
      cases hdispatch : Execution.dispatch env depth t w with
      | mk result after =>
          rw [hdispatch] at hcourse
          cases result with
          | ok outcome => exact Course.trans hcourse (ih (progress.note t outcome) after)
          | error halt => exact hcourse

/-- A cycle that is stopped has handed over what came before, and then the trigger that failed. -/
theorem dispatchesFrom_of_halt {env : Environment} {depth : Nat} {progress : Progress}
    {w : World} {triggers : List Trigger} {halt : Halt ExecutionError}
    (hhalt : (answer env depth progress w triggers).halt = some halt) :
    ∃ answered failing,
      triggers = answered ++ failing :: (answer env depth progress w triggers).left ∧
      (dispatchesFrom env depth w triggers).map (fun d => (d.trigger, d.halt)) =
        answered.map (fun t => (t, none)) ++ [(failing, some halt)] := by
  induction triggers generalizing progress w with
  | nil => cases hhalt
  | cons t rest ih =>
      unfold answer at hhalt ⊢
      unfold dispatchesFrom
      cases hdispatch : Execution.dispatch env depth t w with
      | mk result after =>
          rw [hdispatch] at hhalt
          cases result with
          | ok outcome =>
              obtain ⟨answered, failing, hsplit, hdispatches⟩ := ih hhalt
              refine ⟨t :: answered, failing, ?_, ?_⟩
              · rw [List.cons_append]
                exact congrArg (List.cons t) hsplit
              · simp [hdispatches]
          | error cause =>
              cases hhalt
              exact ⟨[], t, rfl, rfl⟩

/-- What comes of the triggers that a cycle takes. -/
def answered (a : Agent) (depth : Nat) : Answered :=
  answer a.environment depth {} a.world (a.pending.take a.config.maxTriggersPerCycle)

/-- Whatever a cycle reports, it leaves the agent that its answers settle. -/
theorem cycle_agent (a : Agent) (depth : Nat) :
    (a.cycle depth).2 =
      a.settle (a.answered depth) (a.pending.drop a.config.maxTriggersPerCycle) := by
  unfold cycle
  dsimp only
  split
  · rfl
  · rfl
  · split <;> rfl

/-- An execution error of a cycle is the error that stopped its answers. -/
theorem answered_halt {a : Agent} {depth : Nat} {e : ExecutionError}
    (herror : (a.cycle depth).1 = .error (.failed (.execution e))) :
    (a.answered depth).halt = some (.failed e) := by
  unfold cycle at herror
  dsimp only at herror
  split at herror
  · next cause hhalt =>
      simp only [Except.error.injEq, Halt.failed.injEq, AgentError.execution.injEq] at herror
      rw [← herror]
      exact hhalt
  · cases herror
  · split at herror
    · next cause hstrict =>
        simp only [Except.error.injEq, Halt.failed.injEq] at herror
        unfold strictError? at hstrict
        split at hstrict
        · obtain ⟨goal, _, hgoal⟩ := Option.map_eq_some_iff.1 hstrict
          rw [herror] at hgoal
          cases hgoal
        · cases hstrict
    · cases herror

/-- A cycle that ends well answers all its triggers. -/
theorem answered_complete {a : Agent} {depth : Nat} {report : CycleReport}
    (hreport : (a.cycle depth).1 = .ok report) : (a.answered depth).halt = none := by
  unfold cycle at hreport
  dsimp only at hreport
  split at hreport
  · cases hreport
  · cases hreport
  · next hhalt => exact hhalt

/-- The queue after a cycle: what was left behind an error, what was not taken, what was raised. -/
theorem pending_cycle (a : Agent) (depth : Nat) :
    (a.cycle depth).2.pending =
      (a.answered depth).left ++ a.pending.drop a.config.maxTriggersPerCycle ++
        (a.dispatches depth).flatMap Dispatch.raised := by
  have hemitted : (a.answered depth).world.emitted =
      (a.dispatches depth).flatMap Dispatch.raised :=
    emitted_answer a.environment depth {} a.world _
  rw [cycle_agent, ← hemitted]
  rfl

/-- A cycle takes what it hands over from the front and puts what is raised at the back. -/
theorem handed_append_cycle (a : Agent) (depth : Nat) :
    (a.dispatches depth).map Dispatch.trigger ++ (a.cycle depth).2.pending =
      a.pending ++ (a.dispatches depth).flatMap Dispatch.raised := by
  have hleft : (a.dispatches depth).map Dispatch.trigger ++ (a.answered depth).left =
      a.pending.take a.config.maxTriggersPerCycle :=
    dispatchesFrom_append_left a.environment depth {} a.world _
  rw [pending_cycle, ← List.append_assoc, ← List.append_assoc, hleft, List.take_append_drop]

/-- A cycle that ends in an execution error uses up the trigger that failed, and none behind it. -/
theorem pending_of_error {a : Agent} {depth : Nat} {e : ExecutionError}
    (herror : (a.cycle depth).1 = .error (.failed (.execution e))) :
    ∃ answered failing behind, a.pending = answered ++ failing :: behind ∧
      (a.dispatches depth).map (fun d => (d.trigger, d.halt)) =
        answered.map (fun t => (t, none)) ++ [(failing, some (.failed e))] ∧
      (a.cycle depth).2.pending =
        behind ++ (a.dispatches depth).flatMap Dispatch.raised := by
  obtain ⟨answered, failing, hsplit, hdispatches⟩ :=
    dispatchesFrom_of_halt (answered_halt herror)
  refine ⟨answered, failing,
    (a.answered depth).left ++ a.pending.drop a.config.maxTriggersPerCycle, ?_, hdispatches,
    pending_cycle a depth⟩
  calc a.pending
      = a.pending.take a.config.maxTriggersPerCycle ++
          a.pending.drop a.config.maxTriggersPerCycle := (List.take_append_drop _ _).symm
    _ = (answered ++ failing :: (a.answered depth).left) ++
          a.pending.drop a.config.maxTriggersPerCycle := by rw [hsplit]; rfl
    _ = answered ++ failing :: ((a.answered depth).left ++
          a.pending.drop a.config.maxTriggersPerCycle) := by simp

/-! ## The triggers of belief changes -/

theorem pending_addBelief {a changed : Agent} {l : Literal} {added : Bool}
    (hadd : a.addBelief l = .ok (added, changed)) :
    changed.pending = a.pending ++ a.raisedByAdding l := by
  unfold raisedByAdding
  rw [hadd]
  unfold addBelief at hadd
  cases hgraph : a.beliefs.add a.store.heap BeliefGraph.root l (some BeliefGraph.blank) with
  | error e =>
      rw [hgraph] at hadd
      cases hadd
  | ok answer =>
      obtain ⟨isNew, beliefs⟩ := answer
      rw [hgraph] at hadd
      cases hadd
      cases added with
      | true => rfl
      | false => exact (List.append_nil _).symm

theorem pending_removeBelief (a : Agent) (l : Literal) :
    (a.removeBelief l).2.pending = a.pending ++ a.raisedByRemoving l := by
  unfold raisedByRemoving removeBelief
  cases a.beliefs.remove a.store.heap BeliefGraph.root l with
  | mk removed beliefs =>
      cases removed with
      | true => rfl
      | false => exact (List.append_nil _).symm

theorem pending_removeAll (a : Agent) (literals : List Literal) :
    (a.removeAll literals).pending = a.pending ++ a.raisedByRemovingAll literals := by
  unfold removeAll
  induction literals generalizing a with
  | nil => exact (List.append_nil _).symm
  | cons l rest ih =>
      rw [List.foldl_cons, ih, pending_removeBelief, List.append_assoc]
      rfl

theorem pending_addAll (a : Agent) (literals : List Literal) :
    (a.addAll literals).2.pending = a.pending ++ a.raisedByAddingAll literals := by
  induction literals generalizing a with
  | nil => exact (List.append_nil _).symm
  | cons l rest ih =>
      unfold addAll raisedByAddingAll
      cases hadd : a.addBelief l with
      | error e => exact (List.append_nil _).symm
      | ok answer =>
          obtain ⟨added, changed⟩ := answer
          have hchanged := pending_addBelief hadd
          simp only [ih, hchanged, List.append_assoc]

/-- Every request takes triggers from the front of the queue only, and puts them at its back. -/
theorem handedBy_append_pending (a : Agent) (r : Request) :
    a.handedBy r ++ (a.after r).pending = a.pending ++ a.raisedBy r := by
  cases r with
  | trigger t => rfl
  | addBelief l =>
      change (match a.addBelief l with
        | .ok (_, changed) => changed
        | .error _ => a).pending = a.pending ++ a.raisedByAdding l
      cases hadd : a.addBelief l with
      | ok answer => exact pending_addBelief hadd
      | error e =>
          unfold raisedByAdding
          rw [hadd]
          exact (List.append_nil _).symm
  | removeBelief l => exact pending_removeBelief a l
  | perceive added removed =>
      change ((a.removeAll removed).addAll added).2.pending = _
      rw [pending_addAll, pending_removeAll, List.append_assoc]
      rfl
  | cycle depth => exact handed_append_cycle a depth

end Agent

namespace History

/-- The balance of a history: what was handed over and what waits is what was put in. -/
def Balanced (h : History) : Prop := h.dispatched ++ h.agent.pending = h.appended

theorem Balanced.next {h : History} (hbalanced : h.Balanced) (r : Request) :
    (h.next r).Balanced := by
  unfold Balanced at hbalanced ⊢
  calc (h.dispatched ++ h.agent.handedBy r) ++ (h.agent.after r).pending
      = h.dispatched ++ (h.agent.handedBy r ++ (h.agent.after r).pending) :=
        List.append_assoc _ _ _
    _ = (h.dispatched ++ h.agent.pending) ++ h.agent.raisedBy r := by
        rw [Agent.handedBy_append_pending, List.append_assoc]
    _ = h.appended ++ h.agent.raisedBy r := by rw [hbalanced]

theorem Balanced.run {h : History} (hbalanced : h.Balanced) (requests : List Request) :
    (h.run requests).Balanced := by
  unfold History.run
  induction requests generalizing h with
  | nil => exact hbalanced
  | cons r rest ih => exact ih (hbalanced.next r)

/-- The queue of an agent that was just built holds its first goal. -/
theorem appended_start_of_build {config : Config} {spec : AgentSpec} {actions : ActionRegistry}
    {host : Host} {a : Agent} (hbuild : Agent.build config spec actions host = .ok a) :
    (start a).appended = spec.goal.toList.map fun goal => ⟨.addGoal, goal⟩ := by
  obtain ⟨beliefs, -, rfl⟩ := Agent.eq_of_build hbuild
  rfl

/--
The queue is first in, first out over whole runs.  At any time the triggers
handed to the plans so far, followed by those that wait, are the triggers ever
put in the queue, in that order; those of a new agent are its first goal.  A
cycle that ends in an error has used up the trigger that failed and those before
it: what stood behind it waits as before, in front of what the plans raised.
-/
theorem dispatched_append_pending (a : Agent) (requests : List Request) :
    let h := (start a).run requests
    h.dispatched ++ h.agent.pending = h.appended ∧
    (∀ depth e, (h.agent.cycle depth).1 = .error (.failed (.execution e)) →
      ∃ answered failing behind, h.agent.pending = answered ++ failing :: behind ∧
        (h.agent.dispatches depth).map (fun d => (d.trigger, d.halt)) =
          answered.map (fun t => (t, none)) ++ [(failing, some (.failed e))] ∧
        (h.next (.cycle depth)).agent.pending =
          behind ++ (h.agent.dispatches depth).flatMap Dispatch.raised) ∧
    (∀ config spec actions host, Agent.build config spec actions host = .ok a →
      (start a).appended = spec.goal.toList.map fun goal => ⟨.addGoal, goal⟩) := by
  intro h
  have hstart : (start a).Balanced := rfl
  refine ⟨hstart.run requests, ?_, ?_⟩
  · intro depth e herror
    exact Agent.pending_of_error herror
  · intro config spec actions host hbuild
    exact appended_start_of_build hbuild

end History

end Deliberation
