import Deliberation.Execution.World

/-!
# Running steps

A step that asks for a goal at once or calls a rule needs the execution of plans
and rules, which in turn need the execution of steps.  Here the two calls are
left open; `Execution.Dispatch` fills them in.
-/

namespace Deliberation

/-- The executions that steps can call. -/
structure Calls where
  /-- Answer a trigger with the first plan that applies. -/
  dispatch : Trigger → Exec (Option PlanOutcome)
  /-- Call a rule. -/
  callRule : Literal → StepExec (Fuzzy Bool)

namespace Step

/-- An argument of an action: a variable must be bound, a literal is instantiated. -/
def resolveArgument (s : Store) (c : Context) : Term → Except TermError Term
  | .var x => c.value s x.name
  | .lit l => .ok (.lit (c.instantiate s l))
  | .raw v => .ok (.raw v)

/-- Resolve the arguments of an action from left to right. -/
def resolveArguments (s : Store) (c : Context) : List Term → Except TermError (List Term)
  | [] => .ok []
  | t :: rest => do
      let t ← resolveArgument s c t
      let rest ← resolveArguments s c rest
      pure (t :: rest)

/-- Call an action and bind its results. -/
def runAction (env : Environment) (parallel : Bool) (name : Path) (arguments : List Term)
    (returns : List Variable) : StepExec (Fuzzy Bool) := do
  let frame ← get
  let arguments ← StepExec.ofExcept
    ((resolveArguments frame.world.store frame.context arguments).mapError .term)
  let (result, host) :=
    env.actions.execute name.text parallel frame.context arguments frame.world.host
  set { frame with world := { frame.world with host } }
  let (outcome, results) ← StepExec.ofExcept result
  if results.length < returns.length then
    StepExec.fail (.action name.text
      ("returned " ++ toString results.length ++ " values, " ++ toString returns.length ++
        " expected"))
  else do
    StepExec.writing (Context.bindAll ((returns.map Variable.name).zip results))
    pure outcome

/-- Add a ground belief; a belief that is new raises a trigger. -/
def runAddBelief (l : Literal) : StepExec (Fuzzy Bool) := do
  let frame ← get
  let s := frame.world.store
  let l ← StepExec.ofExcept ((frame.context.ground s l).mapError .term)
  let (added, beliefs) ← StepExec.ofExcept
    ((frame.world.beliefs.add s.heap BeliefGraph.root l (some BeliefGraph.blank)).mapError .belief)
  let world := { frame.world with beliefs }
  set { frame with world := if added then world.emit ⟨.addBelief, l⟩ else world }
  pure .truth

/-- Remove a ground belief; a belief that was held raises a trigger. -/
def runRemoveBelief (l : Literal) : StepExec (Fuzzy Bool) := do
  let frame ← get
  let s := frame.world.store
  let l ← StepExec.ofExcept ((frame.context.ground s l).mapError .term)
  let (removed, beliefs) := frame.world.beliefs.remove s.heap BeliefGraph.root l
  let world := { frame.world with beliefs }
  set { frame with world := if removed then world.emit ⟨.deleteBelief, l⟩ else world }
  pure (.certain removed)

/-- Ask for a goal: raise its trigger, or answer it at once. -/
def runAchieve (calls : Calls) (l : Literal) (immediately : Bool) : StepExec (Fuzzy Bool) := do
  let frame ← get
  let goal : Trigger := ⟨.addGoal, frame.context.fill frame.world.store l⟩
  if immediately then
    match ← StepExec.onWorld (calls.dispatch goal) with
    | some outcome => pure outcome.reported
    | none => pure .falsity
  else do
    StepExec.onWorld (Exec.emit goal)
    pure .truth

/-- Unify a literal with the beliefs; on success the context is the committed one. -/
def runUnify (env : Environment) (l : Literal) (guard : Option Expression) (parallel : Bool) :
    StepExec (Fuzzy Bool) := do
  let frame ← get
  let test : Option Guard := guard.map fun e => fun s c => Expression.evaluateFuzzy s c e
  let (result, s) :=
    env.unifier.unify frame.world.beliefs BeliefGraph.root l frame.context test
      (parallel || env.parallelUnification) frame.world.store
  set { frame with world := frame.world.withStore s }
  match ← StepExec.ofExcept result with
  | some context => do
      modify fun frame => { frame with context }
      pure .truth
  | none => pure .falsity

/-- Bind a variable to the value of an expression. -/
def runAssign (name : Path) (e : Expression) : StepExec (Fuzzy Bool) := do
  let frame ← get
  let v ← StepExec.ofExcept (Expression.evaluate frame.world.store frame.context e)
  StepExec.writing (Context.bind name (.raw v))
  pure .truth

/-- The value of a variable, one up or down. -/
def nextNumber (s : Store) (c : Context) (name : Path) (delta : Int64) :
    Except TermError Value := do
  let t ← c.value s name
  let v ← t.rawValue s
  match s.heap.snapshot v with
  | .int i => .ok (.int (i + delta))
  | .float x => .ok (.float (x.add (Binary64.ofInt delta.toInt)))
  | other => Heap.mismatch "number" other

/-- Change a variable by one. -/
def runCount (name : Path) (delta : Int64) : StepExec (Fuzzy Bool) := do
  let frame ← get
  let v ← StepExec.ofExcept
    ((nextNumber frame.world.store frame.context name delta).mapError .term)
  StepExec.writing (Context.bind name (.raw v))
  pure .truth

/-- Run a step; the flag tells actions whether the body is parallel. -/
def run (env : Environment) (calls : Calls) (parallel : Bool) : Step → StepExec (Fuzzy Bool)
  | .action name arguments returns => runAction env parallel name arguments returns
  | .addBelief l => runAddBelief l
  | .removeBelief l => runRemoveBelief l
  | .achieve l immediately => runAchieve calls l immediately
  | .unify l guard parallelUnify => runUnify env l guard parallelUnify
  | .test condition => do
      let frame ← get
      StepExec.ofExcept
        (Expression.evaluateFuzzy frame.world.store frame.context condition)
  | .assign name e => runAssign name e
  | .increment name => runCount name 1
  | .decrement name => runCount name (-1)
  | .rule call => calls.callRule call

end Step

namespace Body

/-- Run steps in turn up to the first one that is not accepted; count the steps that ran. -/
def runSequence (env : Environment) (calls : Calls) (steps : List Step) :
    StepExec (Fuzzy Bool × Nat) :=
  Conjunction.inTurn env.strategy (steps.map (Step.run env calls false))

/--
Run every step on its own copy of a context, also after one that failed or stopped.
The steps run in their order, as on one worker; on several, what they change in the
world may come in another one.
-/
def runEach (env : Environment) (calls : Calls) (c : Context) (steps : List Step) :
    StateM World (List (Except (Halt ExecutionError) (Fuzzy Bool))) :=
  env.pool.mapAll steps fun step w =>
    let (result, frame) := Step.run env calls true step ⟨w, c⟩
    (result, frame.world)

/-- Put results together; the first one that stopped stops all. -/
def collect : List (Except (Halt ExecutionError) (Fuzzy Bool)) →
    Except (Halt ExecutionError) (List (Fuzzy Bool))
  | [] => .ok []
  | .error halt :: _ => .error halt
  | .ok x :: rest => do
      let xs ← collect rest
      pure (x :: xs)

/-- Run all steps, each on its own copy of a context, and combine their results. -/
def runParallel (env : Environment) (calls : Calls) (steps : List Step) (c : Context) :
    Exec (Fuzzy Bool × Nat) := do
  let results ← (runEach env calls c steps : StateM World _)
  match collect results with
  | .ok xs => pure (Conjunction.combine env.strategy xs, xs.length)
  | .error halt => throw halt

end Body

end Deliberation
