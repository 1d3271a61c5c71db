import Deliberation.Execution.Dispatch
import Deliberation.Proofs.Matching.Binding

/-!
# Names that a body does not bind

Steps that assign, count or call an action bind the names that are written in
them, and steps that change beliefs, ask for goals or test bind none.  A name
that no step of a body binds has the same variable after the body as before it.
Steps that unify or call a rule are left out: what they bind depends on the
beliefs and on the rules.
-/

namespace Deliberation

variable {ε σ τ α β : Type}

/-- An effect leaves as it is what `see` shows of the state. -/
def Keeps (see : σ → τ) (x : ExceptT ε (StateM σ) α) : Prop :=
  ∀ s, see (x s).2 = see s

namespace Keeps

variable {see : σ → τ}

theorem pure (a : α) : Keeps see (Pure.pure a : ExceptT ε (StateM σ) α) := fun _ => rfl

theorem get : Keeps see (MonadState.get : ExceptT ε (StateM σ) σ) := fun _ => rfl

theorem throw (e : ε) : Keeps see (MonadExcept.throw e : ExceptT ε (StateM σ) α) := fun _ => rfl

theorem bind {x : ExceptT ε (StateM σ) α} {f : α → ExceptT ε (StateM σ) β} (hx : Keeps see x)
    (hf : ∀ a, Keeps see (f a)) : Keeps see (x >>= f) := by
  intro s
  have hs := hx s
  rw [bind_apply]
  cases happly : x s with
  | mk result after =>
      rw [happly] at hs
      cases result with
      | ok a => exact (hf a after).trans hs
      | error e => exact hs

end Keeps

/-! ## Writing to a context -/

/-- The variable with a name in a scope. -/
def Context.Scope.lookup (name : Path) (scope : Context.Scope) : Option Variable :=
  scope.context.get? name

theorem Context.bind_keeps {name other : Path} (hother : name ≠ other) (t : Term) :
    Keeps (Context.Scope.lookup other) (Context.bind name t) := by
  intro scope
  unfold Context.bind
  rw [bind_apply, get_apply]
  cases hbind : Context.bindIn scope name t with
  | ok after => simpa [hbind, set_apply] using! Context.get?_of_bindIn hbind hother
  | error e => simp [hbind, throw_apply]

theorem Context.bindAll_keeps {other : Path} {pairs : List (Path × Term)}
    (hother : ∀ pair ∈ pairs, pair.1 ≠ other) :
    Keeps (Context.Scope.lookup other) (Context.bindAll pairs) := by
  induction pairs with
  | nil => exact .pure ()
  | cons pair rest ih =>
      obtain ⟨hfirst, hrest⟩ := List.forall_mem_cons.1 hother
      exact .bind (Context.bind_keeps hfirst pair.2) fun _ => ih hrest

/-! ## Steps -/

/-- The variable with a name in a frame. -/
def Frame.lookup (name : Path) (frame : Frame) : Option Variable := frame.context.get? name

namespace StepExec

variable {name : Path}

theorem ofExcept_keeps (result : Except ExecutionError α) :
    Keeps (Frame.lookup name) (ofExcept result) := by
  cases result with
  | ok a => exact .pure a
  | error e => exact .throw (Halt.failed e)

/-- What happens in the world does not touch the context. -/
theorem onWorld_keeps (execution : Exec α) :
    Keeps (Frame.lookup name) (onWorld execution) := by
  intro frame
  unfold onWorld
  simp only [bind_apply, get_apply]
  cases execution frame.world with
  | mk result world => cases result <;> rfl

theorem writing_keeps {operation : Context.Writing α}
    (h : Keeps (Context.Scope.lookup name) operation) :
    Keeps (Frame.lookup name) (writing operation) := by
  intro frame
  have hscope := h ⟨frame.world.store, frame.context⟩
  unfold writing
  simp only [bind_apply, get_apply]
  cases happly : operation ⟨frame.world.store, frame.context⟩ with
  | mk result scope =>
      rw [happly] at hscope
      cases result <;> exact hscope

end StepExec

namespace Step

/-- Whether a step is sure not to bind a name. -/
def leaves (name : Path) : Step → Bool
  | .action _ _ returns => returns.all (·.name ≠ name)
  | .assign bound _ => bound ≠ name
  | .increment bound => bound ≠ name
  | .decrement bound => bound ≠ name
  | .unify _ _ _ => false
  | .rule _ => false
  | _ => true

variable {name : Path}

theorem bindResults_keeps (action : Path) {returns : List Variable}
    (h : ∀ x ∈ returns, x.name ≠ name) (outcome : Fuzzy Bool) (results : List Term) :
    Keeps (Frame.lookup name)
      (if results.length < returns.length then
        StepExec.fail (.action action.text
          ("returned " ++ toString results.length ++ " values, " ++ toString returns.length ++
            " expected"))
      else do
        StepExec.writing (Context.bindAll ((returns.map Variable.name).zip results))
        pure outcome : StepExec (Fuzzy Bool)) := by
  split
  · exact .throw _
  · refine .bind (StepExec.writing_keeps (Context.bindAll_keeps ?_)) fun _ => .pure outcome
    intro pair hpair
    obtain ⟨x, hx, hname⟩ := List.mem_map.1 (List.of_mem_zip hpair).1
    exact hname ▸ h x hx

theorem runAction_keeps (env : Environment) (parallel : Bool) (action : Path)
    (arguments : List Term) {returns : List Variable} (h : ∀ x ∈ returns, x.name ≠ name) :
    Keeps (Frame.lookup name) (runAction env parallel action arguments returns) := by
  intro frame
  unfold runAction
  simp only [bind_apply, get_apply]
  cases resolveArguments frame.world.store frame.context arguments with
  | error e => rfl
  | ok resolved =>
      simp only [mapError_ok, StepExec.ofExcept, pure_apply]
      cases env.actions.execute action.text parallel frame.context resolved frame.world.host with
      | mk result host =>
          cases result with
          | error e => rfl
          | ok answer =>
              exact bindResults_keeps action h answer.1 answer.2
                ⟨{ frame.world with host }, frame.context⟩

theorem runAddBelief_keeps (l : Literal) : Keeps (Frame.lookup name) (runAddBelief l) := by
  intro frame
  unfold runAddBelief
  simp only [bind_apply, get_apply]
  cases frame.context.ground frame.world.store l with
  | error e => rfl
  | ok ground =>
      simp only [mapError_ok, StepExec.ofExcept, pure_apply]
      cases frame.world.beliefs.add frame.world.store.heap BeliefGraph.root ground
          (some BeliefGraph.blank) with
      | error e => rfl
      | ok answer => rfl

theorem runRemoveBelief_keeps (l : Literal) :
    Keeps (Frame.lookup name) (runRemoveBelief l) := by
  intro frame
  unfold runRemoveBelief
  simp only [bind_apply, get_apply]
  cases frame.context.ground frame.world.store l with
  | error e => rfl
  | ok ground => rfl

theorem runAchieve_keeps (calls : Calls) (l : Literal) (immediately : Bool) :
    Keeps (Frame.lookup name) (runAchieve calls l immediately) := by
  refine .bind .get fun frame => ?_
  cases immediately with
  | false => exact .bind (StepExec.onWorld_keeps _) fun _ => .pure _
  | true =>
      refine .bind (StepExec.onWorld_keeps _) fun outcome => ?_
      cases outcome <;> exact .pure _

theorem runAssign_keeps {bound : Path} (h : bound ≠ name) (e : Expression) :
    Keeps (Frame.lookup name) (runAssign bound e) := by
  refine .bind .get fun frame => .bind (StepExec.ofExcept_keeps _) fun v => ?_
  exact .bind (StepExec.writing_keeps (Context.bind_keeps h _)) fun _ => .pure _

theorem runCount_keeps {bound : Path} (h : bound ≠ name) (delta : Int64) :
    Keeps (Frame.lookup name) (runCount bound delta) := by
  refine .bind .get fun frame => .bind (StepExec.ofExcept_keeps _) fun v => ?_
  exact .bind (StepExec.writing_keeps (Context.bind_keeps h _)) fun _ => .pure _

/-- A step that is sure not to bind a name keeps its variable. -/
theorem run_keeps (env : Environment) (calls : Calls) (parallel : Bool) {step : Step}
    (h : step.leaves name = true) :
    Keeps (Frame.lookup name) (step.run env calls parallel) := by
  cases step with
  | action action arguments returns =>
      exact runAction_keeps env parallel action arguments (by simpa [leaves] using h)
  | addBelief l => exact runAddBelief_keeps l
  | removeBelief l => exact runRemoveBelief_keeps l
  | achieve l immediately => exact runAchieve_keeps calls l immediately
  | unify l guard parallelUnify => cases h
  | test condition => exact .bind .get fun _ => StepExec.ofExcept_keeps _
  | assign bound e => exact runAssign_keeps (of_decide_eq_true h) e
  | increment bound => exact runCount_keeps (of_decide_eq_true h) 1
  | decrement bound => exact runCount_keeps (of_decide_eq_true h) (-1)
  | rule call => cases h

end Step

/-! ## Bodies -/

namespace Body

variable {name : Path}

theorem inTurnFrom_keeps (strategy : Strategy) (least : Confidence) (count : Nat)
    {steps : List (StepExec (Fuzzy Bool))}
    (h : ∀ step ∈ steps, Keeps (Frame.lookup name) step) :
    Keeps (Frame.lookup name) (Conjunction.inTurnFrom strategy least count steps) := by
  induction steps generalizing least count with
  | nil => exact .pure _
  | cons step rest ih =>
      obtain ⟨hfirst, hrest⟩ := List.forall_mem_cons.1 h
      refine .bind hfirst fun x => ?_
      split
      · exact ih _ _ hrest
      · exact .pure _

theorem runSequence_keeps (env : Environment) (calls : Calls) {steps : List Step}
    (h : ∀ step ∈ steps, step.leaves name = true) :
    Keeps (Frame.lookup name) (runSequence env calls steps) := by
  refine inTurnFrom_keeps env.strategy .full 0 fun step hstep => ?_
  obtain ⟨source, hsource, rfl⟩ := List.mem_map.1 hstep
  exact Step.run_keeps env calls false (h source hsource)

end Body

/-- A body in turn keeps a name that none of its steps binds; a parallel body keeps all names. -/
theorem Plan.runBody_keeps {env : Environment} {calls : Calls} {p : Plan} {name : Path}
    (h : p.isParallel = false → ∀ step ∈ p.body, step.leaves name = true) {c after : Context}
    {w middle : World} {answer : Fuzzy Bool × Nat}
    (hrun : p.runBody env calls c w = (.ok (answer, after), middle)) :
    after.get? name = c.get? name := by
  unfold runBody at hrun
  cases hparallel : p.isParallel with
  | true =>
      -- every step has run on a copy, and the context comes back as it was
      rw [if_pos hparallel, bind_apply] at hrun
      cases hbody : Body.runParallel env calls p.body c w with
      | mk result later =>
          rw [hbody] at hrun
          cases result with
          | error halt => cases hrun
          | ok x =>
              cases hrun
              rfl
  | false =>
      have hkeeps := Body.runSequence_keeps env calls (h hparallel) ⟨w, c⟩
      rw [if_neg (Bool.eq_false_iff.1 hparallel)] at hrun
      unfold StepExec.inContext at hrun
      simp only [bind_apply, get_apply] at hrun
      cases hbody : Body.runSequence env calls p.body ⟨w, c⟩ with
      | mk result frame =>
          rw [hbody] at hrun hkeeps
          cases result with
          | error halt => cases hrun
          | ok x =>
              cases hrun
              exact hkeeps

end Deliberation
