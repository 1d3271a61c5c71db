import Deliberation.Execution.Step

/-!
# Answering triggers and calling rules

A trigger is answered by the first plan of its group whose trigger literal
matches the event with all its variables and whose guard accepts.  A plan that
fails raises the deletion of its goal.  A rule call tries the rules with its
functor in order, until the body of one succeeds.
-/

namespace Deliberation

namespace Plan

/-- The context of a plan for an event, if the event matches and binds all variables. -/
def instantiate (p : Plan) (event : Literal) : Exec (Option Context) := do
  match Match.bind (← get).store p.trigger.literal event with
  | none => pure none
  | some bindings =>
      if bindings.size ≠ p.trigger.literal.vars.length then pure none
      else do
        let c ← Exec.onStore p.context
        let ((), c) ← StepExec.inContext c (StepExec.writing bindings.apply)
        pure (some c)

/-- Whether the guard accepts a context; no guard accepts all. -/
def checkGuard (env : Environment) (p : Plan) (c : Context) : Exec Bool := do
  match p.guard with
  | none => pure true
  | some condition =>
      match Expression.evaluateFuzzy (← get).store c condition with
      | .ok verdict => pure (env.strategy.accepts verdict)
      | .error e => Exec.fail e

/-- Run the body, and tell the context afterwards; a parallel body leaves it as it is. -/
def runBody (env : Environment) (calls : Calls) (p : Plan) (c : Context) :
    Exec ((Fuzzy Bool × Nat) × Context) :=
  if p.isParallel then do
    let result ← Body.runParallel env calls p.body c
    pure (result, c)
  else StepExec.inContext c (Body.runSequence env calls p.body)

/--
Execute a plan in a context: run the body, count the outcome, and raise the
deletion of the goal when the body failed.  A plan that answers a deleted goal
raises nothing.
-/
def execute (env : Environment) (calls : Calls) (p : Plan) (event : Trigger) (c : Context) :
    Exec PlanOutcome := do
  let ((result, executed), c) ← runBody env calls p c
  let succeeded := env.strategy.accepts result
  modify fun w => { w with library := w.library.record p succeeded }
  if !succeeded && event.kind ≠ .deleteGoal then
    let s := (← get).store
    Exec.emit ⟨.deleteGoal, c.instantiate s p.trigger.literal⟩
  pure
    { plan := p
      event
      state := if succeeded then .succeeded else .failed
      result
      reported := if p.isAtomic then .truth else result
      executed }

end Plan

namespace Execution

/-- Note a new plan instance and give its index. -/
def track (p : Plan) (event : Trigger) : Exec Nat :=
  modifyGet fun w =>
    (w.instances.length, { w with instances := w.instances ++ [⟨p, event, .instantiated⟩] })

/-- Set the state of a plan instance. -/
def setState (index : Nat) (state : PlanState) : Exec Unit :=
  modify fun w => w.setState index state

/-- Try plans in order and execute the first one that applies. -/
def dispatchTo (env : Environment) (calls : Calls) (event : Trigger) :
    List Plan → Exec (Option PlanOutcome)
  | [] => pure none
  | p :: rest => do
      match ← p.instantiate event.literal with
      | none => dispatchTo env calls event rest
      | some c => do
          let index ← track p event
          if ← p.checkGuard env c then do
            setState index .guardChecked
            setState index .executing
            let outcome ← p.execute env calls event c
            setState index outcome.state
            pure (some outcome)
          else dispatchTo env calls event rest

/-- Answer a trigger with the first plan that applies. -/
def dispatchWith (env : Environment) (calls : Calls) (event : Trigger) :
    Exec (Option PlanOutcome) := do
  dispatchTo env calls event ((← get).library.candidates event)

/-- Try one rule: its result and the context of its body, if the head matches the call. -/
def tryRule (env : Environment) (calls : Calls) (call : Literal) (r : Rule) :
    Exec (Option (Fuzzy Bool × Context)) := do
  match Match.bind (← get).store r.head call with
  | none => pure none
  | some bindings =>
      if bindings.size ≠ r.head.vars.length then pure none
      else do
        let c ← Exec.onStore r.context
        let ((), c) ← StepExec.inContext c (StepExec.writing (Rule.bindHeads bindings.bindings))
        let ((result, _), c) ← StepExec.inContext c (Body.runSequence env calls r.body)
        pure (some (result, c))

/--
Try rules in order; the results of the first one that succeeds flow back to the
caller.  The variables of its context are written outward in the order of the next
enumeration, which may be any.
-/
def tryRules (env : Environment) (calls : Calls) (call : Literal) :
    List Rule → StepExec (Fuzzy Bool)
  | [] => pure .falsity
  | r :: rest => do
      match ← StepExec.onWorld (tryRule env calls call r) with
      | none => tryRules env calls call rest
      | some (result, c) =>
          if env.strategy.accepts result then do
            let vars ← StepExec.onWorld (Exec.enumerate env c)
            let _ ← StepExec.writing (Context.propagate vars)
            pure result
          else tryRules env calls call rest

/-- Call a rule.  A call that no rule accepts is an error. -/
def callRuleWith (env : Environment) (calls : Calls) (l : Literal) : StepExec (Fuzzy Bool) := do
  let frame ← get
  let call := frame.context.fill frame.world.store l
  let rules := env.rules.filter fun r => r.accepts call
  if rules.isEmpty then
    StepExec.fail (.ruleNotFound (call.functor.text ++ "/" ++ toString call.arity))
  else tryRules env calls call rules

/-- The calls open to steps, nested at most `n` deep. -/
def callsTo (env : Environment) : Nat → Calls
  | 0 => ⟨fun _ => throw .outOfDepth, fun _ => throw .outOfDepth⟩
  | n + 1 =>
      ⟨fun event => dispatchWith env (callsTo env n) event,
        fun l => callRuleWith env (callsTo env n) l⟩

/-- Answer a trigger, with calls nested at most `depth` deep. -/
def dispatch (env : Environment) (depth : Nat) (event : Trigger) : Exec (Option PlanOutcome) :=
  (callsTo env depth).dispatch event

/-- Call a rule, with calls nested at most `depth` deep. -/
def callRule (env : Environment) (depth : Nat) (l : Literal) : StepExec (Fuzzy Bool) :=
  (callsTo env depth).callRule l

/-- Run one step, with calls nested at most `depth` deep. -/
def runStep (env : Environment) (depth : Nat) (step : Step) : StepExec (Fuzzy Bool) :=
  step.run env (callsTo env depth) false

/-- Run steps in turn, with calls nested at most `depth` deep. -/
def runSequence (env : Environment) (depth : Nat) (steps : List Step) :
    StepExec (Fuzzy Bool × Nat) :=
  Body.runSequence env (callsTo env depth) steps

/-- Run steps on copies of a context, with calls nested at most `depth` deep. -/
def runParallel (env : Environment) (depth : Nat) (steps : List Step) (c : Context) :
    Exec (Fuzzy Bool × Nat) :=
  Body.runParallel env (callsTo env depth) steps c

end Execution

end Deliberation
