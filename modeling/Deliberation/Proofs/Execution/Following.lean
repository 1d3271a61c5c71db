import Deliberation.Proofs.Execution.Course
import Deliberation.Proofs.Term.Boxes

/-!
# Every execution takes a course

The proof goes through the execution of steps, bodies, plans and rules, each
time under the assumption that the calls left open to steps take courses; the
bound on the depth of calls then closes the circle.
-/

namespace Deliberation

variable {σ α β : Type}

/-- A course leads from a world to a result and to the world that `see` shows of the state. -/
def Leads (actions : ActionRegistry) (see : σ → World) (w : World)
    (answer : Except (Halt ExecutionError) α × σ) : Prop :=
  Course actions (Ending.of answer.1) w (see answer.2)

/-- An execution takes a course in the world that `see` shows of its state. -/
def Follows (actions : ActionRegistry) (see : σ → World)
    (x : ExceptT (Halt ExecutionError) (StateM σ) α) : Prop :=
  ∀ s, Leads actions see (see s) (x s)

/-- An execution in a world takes a course. -/
abbrev Exec.Follows (actions : ActionRegistry) (x : Exec α) : Prop :=
  Deliberation.Follows actions id x

/-- Steps take a course in the world of their frame. -/
abbrev StepExec.Follows (actions : ActionRegistry) (x : StepExec α) : Prop :=
  Deliberation.Follows actions Frame.world x

namespace Follows

variable {actions : ActionRegistry} {see : σ → World}

theorem pure (a : α) :
    Follows actions see (Pure.pure a : ExceptT (Halt ExecutionError) (StateM σ) α) :=
  fun s => .refl (see s)

theorem get : Follows actions see (MonadState.get : ExceptT (Halt ExecutionError) (StateM σ) σ) :=
  fun s => .refl (see s)

theorem throw (halt : Halt ExecutionError) :
    Follows actions see
      (MonadExcept.throw halt : ExceptT (Halt ExecutionError) (StateM σ) α) :=
  fun s => .halt (.refl (see s))

theorem bind {x : ExceptT (Halt ExecutionError) (StateM σ) α}
    {f : α → ExceptT (Halt ExecutionError) (StateM σ) β} (hx : Follows actions see x)
    (hf : ∀ a, Follows actions see (f a)) : Follows actions see (x >>= f) := by
  intro s
  have hs := hx s
  rw [bind_apply]
  cases happly : x s with
  | mk result after =>
      rw [happly] at hs
      cases result with
      | ok a => exact hs.trans (hf a after)
      | error halt => exact hs

end Follows

/-! ## Passing between worlds and frames -/

section

variable {actions : ActionRegistry}

theorem StepExec.ofExcept_follows (result : Except ExecutionError α) :
    StepExec.Follows actions (StepExec.ofExcept result) := by
  cases result with
  | ok a => exact .pure a
  | error e => exact .throw (.failed e)

theorem StepExec.onWorld_follows {x : Exec α} (hx : Exec.Follows actions x) :
    StepExec.Follows actions (StepExec.onWorld x) := by
  intro frame
  have hcourse := hx frame.world
  unfold StepExec.onWorld
  simp only [bind_apply, get_apply]
  cases happly : x frame.world with
  | mk result after =>
      rw [happly] at hcourse
      cases result <;> exact hcourse

theorem StepExec.writing_follows {operation : Context.Writing α}
    (hoperation : LeavesBoxes (fun scope => scope.store.heap) operation) :
    StepExec.Follows actions (StepExec.writing operation) := by
  intro frame
  have hheap := hoperation ⟨frame.world.store, frame.context⟩
  unfold StepExec.writing
  simp only [bind_apply, get_apply]
  cases happly : operation ⟨frame.world.store, frame.context⟩ with
  | mk result scope =>
      rw [happly] at hheap
      have hslots : Course actions .complete frame.world (frame.world.withStore scope.store) :=
        .slots frame.world scope.store hheap
      cases result with
      | ok a => exact hslots
      | error e => exact hslots.halt

theorem StepExec.inContext_follows (c : Context) {x : StepExec α}
    (hx : StepExec.Follows actions x) : Exec.Follows actions (StepExec.inContext c x) := by
  intro w
  have hcourse := hx ⟨w, c⟩
  unfold StepExec.inContext
  simp only [bind_apply, get_apply]
  cases happly : x ⟨w, c⟩ with
  | mk result after =>
      rw [happly] at hcourse
      cases result <;> exact hcourse

theorem Exec.onStore_follows {operation : StateM Store α}
    (hoperation : LeavesBoxes Store.heap operation) :
    Exec.Follows actions (Exec.onStore operation) :=
  fun w => .slots w _ (hoperation w.store)

theorem Exec.emit_follows (goal : Literal) :
    Exec.Follows actions (Exec.emit ⟨.addGoal, goal⟩) :=
  fun w => .ask w goal

theorem Exec.enumerate_follows (env : Environment) (c : Context) :
    Exec.Follows actions (Exec.enumerate env c) :=
  fun w => .enumerate w

end

/-! ## Steps -/

/-- The calls that steps can make take courses. -/
structure Calls.Follow (actions : ActionRegistry) (calls : Calls) : Prop where
  dispatch : ∀ event, Exec.Follows actions (calls.dispatch event)
  callRule : ∀ l, StepExec.Follows actions (calls.callRule l)

namespace Step

/-- Binding the results of an action takes a course, also when there are too few of them. -/
theorem bindResults_follows (actions : ActionRegistry) (name : Path) (returns : List Variable)
    (outcome : Fuzzy Bool) (results : List Term) :
    StepExec.Follows actions
      (if results.length < returns.length then
        StepExec.fail (.action name.text
          ("returned " ++ toString results.length ++ " values, " ++ toString returns.length ++
            " expected"))
      else do
        StepExec.writing (Context.bindAll ((returns.map Variable.name).zip results))
        pure outcome) := by
  split
  · exact .throw _
  · exact .bind (StepExec.writing_follows (Context.bindAll_leavesBoxes _)) fun _ => .pure _

theorem runAction_follows (env : Environment) (parallel : Bool) (name : Path)
    (arguments : List Term) (returns : List Variable) :
    StepExec.Follows env.actions (runAction env parallel name arguments returns) := by
  intro frame
  unfold runAction
  simp only [bind_apply, get_apply]
  cases hresolve : resolveArguments frame.world.store frame.context arguments with
  | error e => exact .halt (.refl _)
  | ok resolved =>
      have hact : Course env.actions .complete frame.world _ :=
        .act frame.world name.text parallel frame.context resolved
      cases hexecute :
          env.actions.execute name.text parallel frame.context resolved frame.world.host with
      | mk result host =>
          rw [hexecute] at hact
          simp only [mapError_ok, StepExec.ofExcept, pure_apply, hexecute]
          cases result with
          | error e => exact hact.halt
          | ok answer =>
              exact hact.trans
                (bindResults_follows env.actions name returns answer.1 answer.2
                  ⟨{ frame.world with host }, frame.context⟩)

theorem runAddBelief_follows (actions : ActionRegistry) (l : Literal) :
    StepExec.Follows actions (runAddBelief l) := by
  intro frame
  unfold runAddBelief
  simp only [bind_apply, get_apply]
  cases hground : frame.context.ground frame.world.store l with
  | error e => exact .halt (.refl _)
  | ok ground =>
      simp only [mapError_ok, StepExec.ofExcept, pure_apply]
      cases hadd : frame.world.beliefs.add frame.world.store.heap BeliefGraph.root ground
          (some BeliefGraph.blank) with
      | error e => exact .halt (.refl _)
      | ok answer =>
          obtain ⟨added, beliefs⟩ := answer
          cases added with
          | false => exact .confirm frame.world ground beliefs hadd
          | true => exact .believe frame.world ground beliefs hadd

theorem runRemoveBelief_follows (actions : ActionRegistry) (l : Literal) :
    StepExec.Follows actions (runRemoveBelief l) := by
  intro frame
  unfold runRemoveBelief
  simp only [bind_apply, get_apply]
  cases hground : frame.context.ground frame.world.store l with
  | error e => exact .halt (.refl _)
  | ok ground =>
      simp only [mapError_ok, StepExec.ofExcept, pure_apply]
      cases hremove : frame.world.beliefs.remove frame.world.store.heap BeliefGraph.root
          ground with
      | mk removed beliefs =>
          cases removed with
          | false => exact .miss frame.world ground beliefs hremove
          | true => exact .forget frame.world ground beliefs hremove

theorem runAchieve_follows {actions : ActionRegistry} {calls : Calls}
    (hcalls : calls.Follow actions) (l : Literal) (immediately : Bool) :
    StepExec.Follows actions (runAchieve calls l immediately) := by
  refine .bind .get fun frame => ?_
  cases immediately with
  | false => exact .bind (StepExec.onWorld_follows (Exec.emit_follows _)) fun _ => .pure _
  | true =>
      refine .bind (StepExec.onWorld_follows (hcalls.dispatch _)) fun outcome => ?_
      cases outcome <;> exact .pure _

theorem runUnify_follows (actions : ActionRegistry) (env : Environment) (l : Literal)
    (guard : Option Expression) (parallel : Bool) :
    StepExec.Follows actions (runUnify env l guard parallel) := by
  intro frame
  unfold runUnify
  simp only [bind_apply, get_apply]
  generalize (guard.map fun e => fun s c => Expression.evaluateFuzzy s c e : Option Guard) = test
  have hheap := env.unifier.unify_leavesBoxes frame.world.beliefs BeliefGraph.root l
    frame.context test (parallel || env.parallelUnification) frame.world.store
  cases hunify : env.unifier.unify frame.world.beliefs BeliefGraph.root l frame.context test
      (parallel || env.parallelUnification) frame.world.store with
  | mk result s =>
      rw [hunify] at hheap
      have hslots : Course actions .complete frame.world (frame.world.withStore s) :=
        .slots frame.world s hheap
      cases result with
      | error e => exact hslots.halt
      | ok committed => cases committed <;> exact hslots

theorem runAssign_follows (actions : ActionRegistry) (name : Path) (e : Expression) :
    StepExec.Follows actions (runAssign name e) := by
  refine .bind .get fun frame => .bind (StepExec.ofExcept_follows _) fun v => ?_
  exact .bind (StepExec.writing_follows (Context.bind_leavesBoxes _ _)) fun _ => .pure _

theorem runCount_follows (actions : ActionRegistry) (name : Path) (delta : Int64) :
    StepExec.Follows actions (runCount name delta) := by
  refine .bind .get fun frame => .bind (StepExec.ofExcept_follows _) fun v => ?_
  exact .bind (StepExec.writing_follows (Context.bind_leavesBoxes _ _)) fun _ => .pure _

/-- Every step takes a course. -/
theorem run_follows (env : Environment) {calls : Calls} (hcalls : calls.Follow env.actions)
    (parallel : Bool) (step : Step) :
    StepExec.Follows env.actions (step.run env calls parallel) := by
  cases step with
  | action name arguments returns => exact runAction_follows env parallel name arguments returns
  | addBelief l => exact runAddBelief_follows env.actions l
  | removeBelief l => exact runRemoveBelief_follows env.actions l
  | achieve l immediately => exact runAchieve_follows hcalls l immediately
  | unify l guard parallelUnify => exact runUnify_follows env.actions env l guard parallelUnify
  | test condition => exact .bind .get fun _ => StepExec.ofExcept_follows _
  | assign name e => exact runAssign_follows env.actions name e
  | increment name => exact runCount_follows env.actions name 1
  | decrement name => exact runCount_follows env.actions name (-1)
  | rule call => exact hcalls.callRule call

end Step

/-! ## Bodies -/

namespace Body

theorem inTurnFrom_follows {actions : ActionRegistry} (strategy : Strategy) (least : Confidence)
    (count : Nat) {steps : List (StepExec (Fuzzy Bool))}
    (hsteps : ∀ step ∈ steps, StepExec.Follows actions step) :
    StepExec.Follows actions (Conjunction.inTurnFrom strategy least count steps) := by
  induction steps generalizing least count with
  | nil => exact .pure _
  | cons step rest ih =>
      refine .bind (hsteps step (by simp)) fun x => ?_
      split
      · exact ih _ _ fun later hlater => hsteps later (by simp [hlater])
      · exact .pure _

theorem runSequence_follows (env : Environment) {calls : Calls}
    (hcalls : calls.Follow env.actions) (steps : List Step) :
    StepExec.Follows env.actions (runSequence env calls steps) := by
  refine inTurnFrom_follows env.strategy .full 0 fun step hstep => ?_
  obtain ⟨source, _, rfl⟩ := List.mem_map.1 hstep
  exact source.run_follows env hcalls false

/-- The ending of a parallel body: it is stopped as soon as one of its steps was. -/
def ending (results : List (Except (Halt ExecutionError) (Fuzzy Bool))) : Ending :=
  Ending.of (collect results)

theorem ending_cons_ok (x : Fuzzy Bool)
    (rest : List (Except (Halt ExecutionError) (Fuzzy Bool))) :
    ending (.ok x :: rest) = ending rest := by
  change Ending.of (do
    let xs ← collect rest
    pure (x :: xs)) = Ending.of (collect rest)
  cases collect rest <;> rfl

/-- A parallel body runs its first step, and then the others in the world that it leaves. -/
theorem runEach_cons (env : Environment) (calls : Calls) (c : Context) (step : Step)
    (rest : List Step) (w : World) :
    runEach env calls c (step :: rest) w =
      ((step.run env calls true ⟨w, c⟩).1 ::
          (runEach env calls c rest (step.run env calls true ⟨w, c⟩).2.world).1,
        (runEach env calls c rest (step.run env calls true ⟨w, c⟩).2.world).2) := by
  unfold runEach Pool.mapAll
  rw [List.mapM_cons]
  rfl

theorem runEach_follows (env : Environment) {calls : Calls}
    (hcalls : calls.Follow env.actions) (c : Context) (steps : List Step) (w : World) :
    Course env.actions (ending (runEach env calls c steps w).1) w
      (runEach env calls c steps w).2 := by
  induction steps generalizing w with
  | nil => exact .refl w
  | cons step rest ih =>
      have hstep := step.run_follows env hcalls true ⟨w, c⟩
      rw [runEach_cons]
      cases hrun : step.run env calls true ⟨w, c⟩ with
      | mk result frame =>
          rw [hrun] at hstep
          cases result with
          | ok x =>
              rw [ending_cons_ok]
              exact hstep.trans (ih frame.world)
          | error halt => exact hstep.resume (ih frame.world)

theorem runParallel_follows (env : Environment) {calls : Calls}
    (hcalls : calls.Follow env.actions) (steps : List Step) (c : Context) :
    Exec.Follows env.actions (runParallel env calls steps c) := by
  intro w
  have hcourse := runEach_follows env hcalls c steps w
  unfold ending at hcourse
  unfold runParallel
  rw [bind_apply, lift_apply]
  cases hcollect : collect (runEach env calls c steps w).1 with
  | ok xs =>
      rw [hcollect] at hcourse
      simp only [hcollect]
      exact hcourse
  | error halt =>
      rw [hcollect] at hcourse
      simp only [hcollect]
      exact hcourse

end Body

/-! ## Plans -/

namespace Plan

variable {actions : ActionRegistry}

theorem instantiate_follows (p : Plan) (event : Literal) :
    Exec.Follows actions (p.instantiate event) := by
  refine .bind .get fun w => ?_
  split
  · exact .pure none
  · split
    · exact .pure none
    · refine .bind (Exec.onStore_follows p.context_leavesBoxes) fun c => ?_
      refine .bind (StepExec.inContext_follows c ?_) fun _ => .pure _
      exact StepExec.writing_follows (BindingSet.apply_leavesBoxes _)

theorem runBody_follows (env : Environment) {calls : Calls} (hcalls : calls.Follow env.actions)
    (p : Plan) (c : Context) : Exec.Follows env.actions (p.runBody env calls c) := by
  unfold runBody
  split
  · exact .bind (Body.runParallel_follows env hcalls p.body c) fun _ => .pure _
  · exact StepExec.inContext_follows c (Body.runSequence_follows env hcalls p.body)

/-- A plan whose body comes to its end concludes the world that the body left.  The goal that it
failed is made of the context that the body left. -/
theorem execute_of_runBody {env : Environment} {calls : Calls} {p : Plan} {c after : Context}
    {w middle : World} {result : Fuzzy Bool} {executed : Nat}
    (h : p.runBody env calls c w = (.ok ((result, executed), after), middle)) (event : Trigger) :
    p.execute env calls event c w =
      (.ok
        { plan := p
          event
          state := .ofOutcome (env.strategy.accepts result)
          result
          reported := if p.isAtomic then .truth else result
          executed },
        middle.conclude p event (after.instantiate middle.store p.trigger.literal)
          (env.strategy.accepts result)) := by
  unfold execute
  rw [bind_apply, h]
  cases hraise : (!env.strategy.accepts result && decide (event.kind ≠ .deleteGoal))
  · simp only [bind_apply, World.conclude, hraise]
    rfl
  · simp only [bind_apply, World.conclude, hraise]
    rfl

/-- A plan that is executed to its end concludes the world that its body left. -/
theorem execute_apply (env : Environment) (calls : Calls) (p : Plan) (event : Trigger)
    (c : Context) (w : World) :
    (∃ halt after, p.runBody env calls c w = (.error halt, after) ∧
      p.execute env calls event c w = (.error halt, after)) ∨
    ∃ result after outcome goal succeeded, p.runBody env calls c w = (.ok result, after) ∧
      outcome.state = PlanState.ofOutcome succeeded ∧
      p.execute env calls event c w = (.ok outcome, after.conclude p event goal succeeded) := by
  cases hbody : p.runBody env calls c w with
  | mk result after =>
      cases result with
      | error halt =>
          refine .inl ⟨halt, after, rfl, ?_⟩
          unfold execute
          rw [bind_apply, hbody]
      | ok answer => exact .inr ⟨_, after, _, _, _, rfl, rfl, execute_of_runBody hbody event⟩

/-- Asking the guard changes nothing. -/
theorem checkGuard_world (env : Environment) (p : Plan) (c : Context) (w : World) :
    (p.checkGuard env c w).2 = w := by
  unfold checkGuard
  cases p.guard with
  | none => rfl
  | some condition =>
      simp only [bind_apply, get_apply]
      cases Expression.evaluateFuzzy w.store c condition <;> rfl

end Plan

/-! ## Answering triggers -/

namespace World

/-- Setting the state of the instance noted last is the same as noting it in that state. -/
theorem setState_note (w : World) (p : Plan) (event : Trigger) (state later : PlanState) :
    (w.note p event state).setState w.instances.length later = w.note p event later := by
  simp [note, setState, List.modify_eq_take_cons_drop]

end World

namespace Execution

/-- A plan whose guard accepts is executed, and its instance gets the state of the outcome. -/
theorem executeNoted_follows (env : Environment) {calls : Calls}
    (hcalls : calls.Follow env.actions) (p : Plan) (event : Trigger) (c : Context) (w : World) :
    Leads env.actions id w
      ((do
        let outcome ← p.execute env calls event c
        setState w.instances.length outcome.state
        pure (some outcome) : Exec (Option PlanOutcome)) (w.note p event .executing)) := by
  have hbody := p.runBody_follows env hcalls c (w.note p event .executing)
  rw [bind_apply]
  rcases p.execute_apply env calls event c (w.note p event .executing) with
    ⟨halt, after, hrun, hexecute⟩ |
      ⟨result, after, outcome, goal, succeeded, hrun, hstate, hexecute⟩
  · rw [hrun] at hbody
    rw [hexecute]
    exact Course.abandon p event hbody
  · rw [hrun] at hbody
    rw [hexecute]
    have hanswer := Course.answer p event goal succeeded hbody
    rw [← hstate] at hanswer
    exact hanswer

theorem dispatchTo_follows (env : Environment) {calls : Calls}
    (hcalls : calls.Follow env.actions) (event : Trigger) (plans : List Plan) :
    Exec.Follows env.actions (dispatchTo env calls event plans) := by
  induction plans with
  | nil => exact .pure none
  | cons p rest ih =>
      refine .bind (p.instantiate_follows event.literal) fun found => ?_
      cases found with
      | none => exact ih
      | some c =>
          intro w
          have hconsider : Course env.actions .complete w _ := .consider w p event
          have hguard := p.checkGuard_world env c (w.note p event .instantiated)
          change Leads env.actions id w ((p.checkGuard env c >>= fun accepted =>
              if accepted = true then do
                setState w.instances.length .guardChecked
                setState w.instances.length .executing
                let outcome ← p.execute env calls event c
                setState w.instances.length outcome.state
                pure (some outcome)
              else dispatchTo env calls event rest : Exec _) (w.note p event .instantiated))
          rw [bind_apply]
          cases hcheck : p.checkGuard env c (w.note p event .instantiated) with
          | mk result after =>
              rw [hcheck] at hguard
              subst hguard
              cases result with
              | error halt => exact hconsider.halt
              | ok accepted =>
                  cases accepted with
                  | false => exact hconsider.trans (ih _)
                  | true =>
                      -- the two states before the execution leave no trace
                      have hexecute := executeNoted_follows env hcalls p event c w
                      rw [← w.setState_note p event .guardChecked,
                        ← w.setState_note p event .instantiated] at hexecute
                      exact hexecute

theorem dispatchWith_follows (env : Environment) {calls : Calls}
    (hcalls : calls.Follow env.actions) (event : Trigger) :
    Exec.Follows env.actions (dispatchWith env calls event) :=
  .bind .get fun _ => dispatchTo_follows env hcalls event _

/-! ## Calling rules -/

theorem tryRule_follows (env : Environment) {calls : Calls}
    (hcalls : calls.Follow env.actions) (call : Literal) (r : Rule) :
    Exec.Follows env.actions (tryRule env calls call r) := by
  refine .bind .get fun w => ?_
  split
  · exact .pure none
  · split
    · exact .pure none
    · refine .bind (Exec.onStore_follows r.context_leavesBoxes) fun c => ?_
      refine .bind (StepExec.inContext_follows c ?_) fun answer => ?_
      · exact StepExec.writing_follows (Rule.bindHeads_leavesBoxes _)
      · refine .bind (StepExec.inContext_follows answer.2 ?_) fun _ => .pure _
        exact Body.runSequence_follows env hcalls r.body

theorem tryRules_follows (env : Environment) {calls : Calls}
    (hcalls : calls.Follow env.actions) (call : Literal) (rules : List Rule) :
    StepExec.Follows env.actions (tryRules env calls call rules) := by
  induction rules with
  | nil => exact .pure _
  | cons r rest ih =>
      refine .bind (StepExec.onWorld_follows (tryRule_follows env hcalls call r)) fun found => ?_
      cases found with
      | none => exact ih
      | some answer =>
          dsimp only
          split
          · refine .bind (StepExec.onWorld_follows (Exec.enumerate_follows env _)) fun vars => ?_
            refine .bind (StepExec.writing_follows ?_) fun _ => .pure _
            exact Context.propagate_leavesBoxes vars
          · exact ih

theorem callRuleWith_follows (env : Environment) {calls : Calls}
    (hcalls : calls.Follow env.actions) (l : Literal) :
    StepExec.Follows env.actions (callRuleWith env calls l) := by
  refine .bind .get fun frame => ?_
  dsimp only
  split
  · exact .throw _
  · exact tryRules_follows env hcalls _ _

/-- The calls open to steps take courses, however deep they may be nested. -/
theorem callsTo_follow (env : Environment) (depth : Nat) :
    (callsTo env depth).Follow env.actions := by
  induction depth with
  | zero => exact ⟨fun _ => .throw .outOfDepth, fun _ => .throw .outOfDepth⟩
  | succ n ih => exact ⟨dispatchWith_follows env ih, callRuleWith_follows env ih⟩

/-- Answering a trigger takes a course. -/
theorem dispatch_follows (env : Environment) (depth : Nat) (event : Trigger) :
    Exec.Follows env.actions (dispatch env depth event) :=
  (callsTo_follow env depth).dispatch event

end Execution

end Deliberation
