import Deliberation.Execution.Dispatch
import Deliberation.Proofs.Execution.Following
import Deliberation.Proofs.Plan.Renaming

/-!
# Executions in renamed worlds

An injective renaming of all variables, in the rules and plans, in the beliefs,
slots and contexts, is followed by every execution: the results are the same, and
the worlds stay renamings of each other.  Two things are left out of the
comparison, the texts in errors and the printed lines.

Actions may do anything with the terms that they are given.  They are assumed to
be blind to the names in them; the actions that every agent may have are.
-/

namespace Deliberation

variable {α β : Type} {f : Path → Path}

/-! ## Worlds and frames -/

/-- What an execution stops with, without texts. -/
def Halt.kind : Halt ExecutionError → Option String
  | .failed cause => some cause.code
  | .outOfDepth => none

/-- Rename the variables of a plan instance. -/
def PlanInstance.rename (f : Path → Path) (i : PlanInstance) : PlanInstance :=
  ⟨i.plan.rename f, i.event.rename f, i.state⟩

/-- Rename the variables of an outcome. -/
def PlanOutcome.rename (f : Path → Path) (outcome : PlanOutcome) : PlanOutcome :=
  { outcome with plan := outcome.plan.rename f, event := outcome.event.rename f }

/-- The second host has the renamed store of the first one; printed lines do not count. -/
def Host.Renames (f : Path → Path) (host other : Host) : Prop := other.store = host.store.rename f

/-- The second world is the first one with its variables renamed. -/
structure World.Renames (f : Path → Path) (w other : World) : Prop where
  host : w.host.Renames f other.host
  beliefs : other.beliefs = w.beliefs.rename f
  library : other.library = w.library.rename f
  emitted : other.emitted = w.emitted.map (Trigger.rename f)
  instances : other.instances = w.instances.map (PlanInstance.rename f)
  enumerations : other.enumerations = w.enumerations

/-- The second frame is the first one with its variables renamed. -/
structure Frame.Renames (f : Path → Path) (frame other : Frame) : Prop where
  world : frame.world.Renames f other.world
  context : other.context = frame.context.rename f

namespace World.Renames

variable {w other : World} (h : w.Renames f other)

include h

theorem store : other.store = w.store.rename f := h.host

theorem withStore (s : Store) : (w.withStore s).Renames f (other.withStore (s.rename f)) where
  host := rfl
  beliefs := h.beliefs
  library := h.library
  emitted := h.emitted
  instances := h.instances
  enumerations := h.enumerations

theorem emit (t : Trigger) : (w.emit t).Renames f (other.emit (t.rename f)) where
  host := h.host
  beliefs := h.beliefs
  library := h.library
  emitted := by rw [World.emit, World.emit, h.emitted, List.map_append, List.map_singleton]
  instances := h.instances
  enumerations := h.enumerations

theorem withBeliefs (beliefs : BeliefGraph) :
    World.Renames f { w with beliefs } { other with beliefs := beliefs.rename f } where
  host := h.host
  beliefs := rfl
  library := h.library
  emitted := h.emitted
  instances := h.instances
  enumerations := h.enumerations

end World.Renames

/-- Actions that take no notice of the names of variables. -/
def ActionRegistry.Blind (f : Path → Path) (actions : ActionRegistry) : Prop :=
  ∀ name parallel (c : Context) arguments,
    Mirrors ExecutionError.code (Host.Renames f)
      (Becomes fun answer => (answer.1, answer.2.map (Term.rename f)))
      (actions.execute name parallel c arguments)
      (actions.execute name parallel (c.rename f) (arguments.map (Term.rename f)))

/-- An execution in a world and one in a renamed world. -/
abbrev Exec.Mirrors (f : Path → Path) (A : α → β → Prop) (x : Exec α) (y : Exec β) : Prop :=
  Deliberation.Mirrors Halt.kind (World.Renames f) A x y

/-- Steps in a frame and steps in a renamed frame. -/
abbrev StepExec.Mirrors (f : Path → Path) (A : α → β → Prop) (x : StepExec α) (y : StepExec β) :
    Prop :=
  Deliberation.Mirrors Halt.kind (Frame.Renames f) A x y

/-! ## Passing between worlds and frames -/

section Passing

variable {A : α → β → Prop}

theorem StepExec.ofExcept_mirrors {x : Except ExecutionError α} {y : Except ExecutionError β}
    (h : Both ExecutionError.code A x y) :
    StepExec.Mirrors f A (StepExec.ofExcept x) (StepExec.ofExcept y) := by
  cases h with
  | ok hab => exact .pure hab
  | error he => exact .throw (congrArg some he)

theorem StepExec.onWorld_mirrors {x : Exec α} {y : Exec β} (h : Exec.Mirrors f A x y) :
    StepExec.Mirrors f A (StepExec.onWorld x) (StepExec.onWorld y) := by
  refine .bind .get fun frame other hframe => ?_
  obtain ⟨hresult, hworld⟩ := h frame.world other.world hframe.world
  generalize x frame.world = left at hresult hworld ⊢
  generalize y other.world = right at hresult hworld ⊢
  obtain ⟨result, world⟩ := left
  obtain ⟨result', world'⟩ := right
  refine .bindEq (.set ⟨hworld, hframe.context⟩) fun _ => ?_
  cases hresult with
  | ok hab => exact .pure hab
  | error he => exact .throw he

theorem StepExec.writing_mirrors {x : Context.Writing α} {y : Context.Writing β}
    (h : Deliberation.Mirrors TermError.code (Becomes (Context.Scope.rename f)) A x y) :
    StepExec.Mirrors f A (StepExec.writing x) (StepExec.writing y) := by
  refine .bind .get fun frame other hframe => ?_
  have hscope : Becomes (Context.Scope.rename f) ⟨frame.world.store, frame.context⟩
      ⟨other.world.store, other.context⟩ := by
    rw [hframe.world.store, hframe.context]
    rfl
  obtain ⟨hresult, hafter⟩ := h _ _ hscope
  generalize x ⟨frame.world.store, frame.context⟩ = left at hresult hafter ⊢
  generalize y ⟨other.world.store, other.context⟩ = right at hresult hafter ⊢
  obtain ⟨result, scope⟩ := left
  obtain ⟨result', scope'⟩ := right
  cases hafter
  refine .bindEq (.set ⟨hframe.world.withStore scope.store, rfl⟩) fun _ => ?_
  cases hresult with
  | ok hab => exact .pure hab
  | error he => exact .throw (congrArg some he)

/-- Steps in contexts of their own, of which the second is the first one renamed. -/
theorem StepExec.inContext_mirrors (c : Context) {x : StepExec α} {y : StepExec β}
    (h : StepExec.Mirrors f A x y) :
    Exec.Mirrors f (fun a b => A a.1 b.1 ∧ b.2 = a.2.rename f) (StepExec.inContext c x)
      (StepExec.inContext (c.rename f) y) := by
  refine .bind .get fun w other hw => ?_
  obtain ⟨hresult, hframe⟩ := h ⟨w, c⟩ ⟨other, c.rename f⟩ ⟨hw, rfl⟩
  generalize x ⟨w, c⟩ = left at hresult hframe ⊢
  generalize y ⟨other, c.rename f⟩ = right at hresult hframe ⊢
  obtain ⟨result, frame⟩ := left
  obtain ⟨result', frame'⟩ := right
  refine .bindEq (.set hframe.world) fun _ => ?_
  cases hresult with
  | ok hab => exact .pure ⟨hab, hframe.context⟩
  | error he => exact .throw he

theorem Exec.onStore_mirrors {operation : StateM Store α} {other : StateM Store β}
    {change : α → β}
    (h : ∀ s, other (s.rename f) = (change (operation s).1, (operation s).2.rename f)) :
    Exec.Mirrors f (Becomes change) (Exec.onStore operation) (Exec.onStore other) := by
  intro w renamed hw
  have hstore := h w.store
  rw [← hw.store] at hstore
  change Both Halt.kind (Becomes change) (.ok (operation w.store).1) (.ok (other renamed.store).1) ∧
    (w.withStore (operation w.store).2).Renames f (renamed.withStore (other renamed.store).2)
  rw [hstore]
  exact ⟨.ok rfl, hw.withStore _⟩

theorem Exec.emit_mirrors (t : Trigger) :
    Exec.Mirrors f Eq (Exec.emit t) (Exec.emit (t.rename f)) :=
  .modifying fun _ _ h => h.emit t

end Passing

/-! ## Steps -/

/-- Calls open to steps, in a world and in a renamed one. -/
structure Calls.Mirror (f : Path → Path) (calls other : Calls) : Prop where
  dispatch : ∀ event, Exec.Mirrors f (Becomes (Option.map (PlanOutcome.rename f)))
    (calls.dispatch event) (other.dispatch (event.rename f))
  callRule : ∀ l, StepExec.Mirrors f Eq (calls.callRule l) (other.callRule (l.rename f))

namespace Step

variable (hf : Function.Injective f)

include hf

theorem resolveArguments_rename (s : Store) (c : Context) (arguments : List Term) :
    Both TermError.code (Becomes (List.map (Term.rename f))) (resolveArguments s c arguments)
      (resolveArguments (s.rename f) (c.rename f) (arguments.map (Term.rename f))) := by
  induction arguments with
  | nil => exact .ok rfl
  | cons t rest ih =>
      have hfirst : Both TermError.code (Becomes (Term.rename f)) (resolveArgument s c t)
          (resolveArgument (s.rename f) (c.rename f) (t.rename f)) := by
        cases t with
        | raw v => exact .ok rfl
        | lit l => exact .ok (congrArg Term.lit (Context.instantiate_rename hf s c l))
        | var x =>
            have hvalue := Context.value_rename hf s c x.name
            rw [← x.name_rename f] at hvalue
            exact hvalue
      exact hfirst.bindBecomes fun _ => ih.bindBecomes fun _ => .ok rfl

theorem runAction_mirrors {env other : Environment} (hactions : other.actions = env.actions)
    (hblind : env.actions.Blind f) (parallel : Bool) (name : Path) (arguments : List Term)
    (returns : List Variable) :
    StepExec.Mirrors f Eq (runAction env parallel name arguments returns)
      (runAction other parallel name (arguments.map (Term.rename f))
        (returns.map (Variable.rename f))) := by
  refine .bind .get fun frame renamed hframe => ?_
  dsimp only
  rw [hframe.world.store, hframe.context]
  refine .bind (StepExec.ofExcept_mirrors
    ((resolveArguments_rename hf frame.world.store frame.context arguments).mapError
      fun _ _ h => h)) fun resolved _ hresolved => ?_
  cases hresolved
  obtain ⟨hresult, hhost⟩ := hblind name.text parallel frame.context resolved frame.world.host
    renamed.world.host hframe.world.host
  rw [hactions]
  generalize env.actions.execute name.text parallel frame.context resolved frame.world.host =
    left at hresult hhost ⊢
  generalize env.actions.execute name.text parallel (frame.context.rename f)
    (resolved.map (Term.rename f)) renamed.world.host = right at hresult hhost ⊢
  obtain ⟨result, host⟩ := left
  obtain ⟨result', host'⟩ := right
  refine .bindEq (.set ⟨⟨hhost, hframe.world.beliefs, hframe.world.library, hframe.world.emitted,
    hframe.world.instances, hframe.world.enumerations⟩, rfl⟩) fun _ => ?_
  refine .bind (StepExec.ofExcept_mirrors hresult) fun answer _ hanswer => ?_
  cases hanswer
  obtain ⟨outcome, results⟩ := answer
  dsimp only
  rw [List.length_map, List.length_map]
  split
  · exact .throw rfl
  · have hpairs : ((returns.map (Variable.rename f)).map Variable.name).zip
        (results.map (Term.rename f)) =
          ((returns.map Variable.name).zip results).map
            fun pair => (f pair.1, pair.2.rename f) := by
      have hnames : (returns.map (Variable.rename f)).map Variable.name =
          (returns.map Variable.name).map f := by
        rw [List.map_map, List.map_map]
        exact List.map_congr_left fun x _ => x.name_rename f
      rw [hnames, List.zip_map]
      rfl
    rw [hpairs]
    exact .bindEq (StepExec.writing_mirrors (Context.bindAll_rename hf _)) fun _ => .pure rfl

theorem runAddBelief_mirrors (l : Literal) :
    StepExec.Mirrors f Eq (runAddBelief l) (runAddBelief (l.rename f)) := by
  refine .bind .get fun frame other hframe => ?_
  dsimp only
  rw [hframe.world.store, hframe.context]
  refine .bind (StepExec.ofExcept_mirrors
    ((Context.ground_rename hf frame.world.store frame.context l).mapError fun _ _ h => h))
    fun ground _ hground => ?_
  cases hground
  have hadd : Both ExecutionError.code (Becomes fun answer => (answer.1, answer.2.rename f))
      ((frame.world.beliefs.add frame.world.store.heap BeliefGraph.root ground
        (some BeliefGraph.blank)).mapError .belief)
      ((other.world.beliefs.add (frame.world.store.rename f).heap BeliefGraph.root (ground.rename f)
        (some BeliefGraph.blank)).mapError .belief) := by
    rw [hframe.world.beliefs, Store.heap_rename, BeliefGraph.add_rename hf]
    cases frame.world.beliefs.add frame.world.store.heap BeliefGraph.root ground
      (some BeliefGraph.blank) with
    | ok answer => exact .ok rfl
    | error e => exact .error rfl
  refine .bind (StepExec.ofExcept_mirrors hadd) fun answer _ hanswer => ?_
  cases hanswer
  obtain ⟨added, beliefs⟩ := answer
  have hworld := hframe.world.withBeliefs beliefs
  cases added with
  | false => exact .bindEq (.set ⟨hworld, rfl⟩) fun _ => .pure rfl
  | true => exact .bindEq (.set ⟨hworld.emit ⟨.addBelief, ground⟩, rfl⟩) fun _ => .pure rfl

theorem runRemoveBelief_mirrors (l : Literal) :
    StepExec.Mirrors f Eq (runRemoveBelief l) (runRemoveBelief (l.rename f)) := by
  refine .bind .get fun frame other hframe => ?_
  dsimp only
  rw [hframe.world.store, hframe.context]
  refine .bind (StepExec.ofExcept_mirrors
    ((Context.ground_rename hf frame.world.store frame.context l).mapError fun _ _ h => h))
    fun ground _ hground => ?_
  cases hground
  rw [hframe.world.beliefs, Store.heap_rename, BeliefGraph.remove_rename hf]
  obtain ⟨removed, beliefs⟩ := frame.world.beliefs.remove frame.world.store.heap BeliefGraph.root
    ground
  have hworld := hframe.world.withBeliefs beliefs
  cases removed with
  | false => exact .bindEq (.set ⟨hworld, rfl⟩) fun _ => .pure rfl
  | true => exact .bindEq (.set ⟨hworld.emit ⟨.deleteBelief, ground⟩, rfl⟩) fun _ => .pure rfl

theorem runAchieve_mirrors {calls other : Calls} (hcalls : calls.Mirror f other) (l : Literal)
    (immediately : Bool) :
    StepExec.Mirrors f Eq (runAchieve calls l immediately)
      (runAchieve other (l.rename f) immediately) := by
  refine .bind .get fun frame renamed hframe => ?_
  dsimp only
  rw [hframe.world.store, hframe.context, Context.fill_rename hf]
  cases immediately with
  | false =>
      refine .bindEq (StepExec.onWorld_mirrors (Exec.emit_mirrors
        ⟨.addGoal, frame.context.fill frame.world.store l⟩)) fun _ => .pure rfl
  | true =>
      refine .bind (StepExec.onWorld_mirrors (hcalls.dispatch
        ⟨.addGoal, frame.context.fill frame.world.store l⟩)) fun outcome _ houtcome => ?_
      cases houtcome
      cases outcome <;> exact .pure rfl

theorem runUnify_mirrors (env other : Environment) (hunifier : other.unifier = env.unifier)
    (hparallel : other.parallelUnification = env.parallelUnification) (l : Literal)
    (guard : Option Expression) (parallel : Bool) :
    StepExec.Mirrors f Eq (runUnify env l guard parallel)
      (runUnify other (l.rename f) (guard.map (ExpressionOf.rename f)) parallel) := by
  refine .bind .get fun frame renamed hframe => ?_
  dsimp only
  rw [hframe.world.store, hframe.context, hframe.world.beliefs, hunifier, hparallel]
  have hguard : Unifier.SameTest f
      (guard.map fun e => (fun s c => Expression.evaluateFuzzy s c e : Guard))
      ((guard.map (ExpressionOf.rename f)).map
        fun e => fun s c => Expression.evaluateFuzzy s c e) := by
    cases guard with
    | none => exact .none
    | some e => exact .some fun s c => Expression.evaluateFuzzy_rename hf s c e
  obtain ⟨hresult, hstore⟩ := Unifier.unify_rename hf hguard env.unifier frame.world.beliefs
    BeliefGraph.root l frame.context (parallel || env.parallelUnification) frame.world.store _ rfl
  generalize env.unifier.unify frame.world.beliefs BeliefGraph.root l frame.context _
    (parallel || env.parallelUnification) frame.world.store = left at hresult hstore ⊢
  generalize env.unifier.unify (frame.world.beliefs.rename f) BeliefGraph.root (l.rename f)
    (frame.context.rename f) _ (parallel || env.parallelUnification)
    (frame.world.store.rename f) = right at hresult hstore ⊢
  obtain ⟨result, s⟩ := left
  obtain ⟨result', s'⟩ := right
  cases hstore
  refine .bindEq (.set ⟨hframe.world.withStore s, rfl⟩) fun _ => ?_
  refine .bind (StepExec.ofExcept_mirrors hresult) fun committed _ hcommitted => ?_
  cases hcommitted
  cases committed with
  | none => exact .pure rfl
  | some context =>
      exact .bindEq (.modifying fun _ _ h => ⟨h.world, rfl⟩) fun _ => .pure rfl

theorem runAssign_mirrors (name : Path) (e : Expression) :
    StepExec.Mirrors f Eq (runAssign name e) (runAssign (f name) (ExpressionOf.rename f e)) := by
  refine .bind .get fun frame other hframe => ?_
  rw [hframe.world.store, hframe.context]
  refine .bindEq (StepExec.ofExcept_mirrors
    (Expression.evaluate_rename hf frame.world.store frame.context e)) fun v => ?_
  exact .bindEq (StepExec.writing_mirrors (Context.bind_rename hf name (.raw v))) fun _ => .pure rfl

theorem runCount_mirrors (name : Path) (delta : Int64) :
    StepExec.Mirrors f Eq (runCount name delta) (runCount (f name) delta) := by
  refine .bind .get fun frame other hframe => ?_
  rw [hframe.world.store, hframe.context]
  have hnext : Both TermError.code Eq (nextNumber frame.world.store frame.context name delta)
      (nextNumber (frame.world.store.rename f) (frame.context.rename f) (f name) delta) := by
    refine .bindBecomes (Context.value_rename hf frame.world.store frame.context name) fun t => ?_
    exact .bindEq (t.rawValue_rename f frame.world.store) fun v => .refl _ _
  refine .bindEq (StepExec.ofExcept_mirrors (hnext.mapError fun _ _ h => h)) fun v => ?_
  exact .bindEq (StepExec.writing_mirrors (Context.bind_rename hf name (.raw v))) fun _ => .pure rfl

end Step

/-- The second enumeration has renamed variables in the order in which the first one has them. -/
def Enumeration.Renames (f : Path → Path) (enumeration other : Enumeration) : Prop :=
  ∀ time vars, other.order time (vars.map (Variable.rename f)) =
    (enumeration.order time vars).map (Variable.rename f)

/-- Rename the variables of all rules, and let variables come in other orders. -/
def Environment.rename (f : Path → Path) (env : Environment) (enumeration : Enumeration) :
    Environment :=
  { env with rules := env.rules.map (Rule.rename f), enumeration }

section Executions

variable (hf : Function.Injective f) {env : Environment} (hblind : env.actions.Blind f)
  {calls other : Calls} (hcalls : calls.Mirror f other) {enumeration : Enumeration}

/-- The results of two parallel bodies put together. -/
theorem Body.collect_both {xs ys : List (Except (Halt ExecutionError) (Fuzzy Bool))}
    (h : List.Forall₂ (Both Halt.kind Eq) xs ys) :
    Both Halt.kind Eq (Body.collect xs) (Body.collect ys) := by
  induction h with
  | nil => exact .ok rfl
  | cons hfirst _ ih =>
      cases hfirst with
      | ok hab =>
          cases hab
          exact .bindEq ih fun _ => .ok rfl
      | error he => exact .error he

theorem Execution.track_mirrors (p : Plan) (event : Trigger) :
    Exec.Mirrors f Eq (Execution.track p event)
      (Execution.track (p.rename f) (event.rename f)) := by
  intro w renamed hw
  have hindex : w.instances.length = renamed.instances.length := by
    rw [hw.instances, List.length_map]
  have hinstances :
      renamed.instances ++ [PlanInstance.mk (p.rename f) (event.rename f) .instantiated] =
        (w.instances ++ [PlanInstance.mk p event .instantiated]).map (PlanInstance.rename f) := by
    rw [hw.instances, List.map_append]
    rfl
  exact ⟨.ok hindex, hw.host, hw.beliefs, hw.library, hw.emitted, hinstances, hw.enumerations⟩

theorem Execution.setState_mirrors (index : Nat) (state : PlanState) :
    Exec.Mirrors f Eq (Execution.setState index state) (Execution.setState index state) := by
  refine .modifying fun w renamed hw =>
    ⟨hw.host, hw.beliefs, hw.library, hw.emitted, ?_, hw.enumerations⟩
  change renamed.instances.modify index _ = (w.instances.modify index _).map _
  rw [hw.instances]
  refine List.ext_getElem? fun i => ?_
  rw [List.getElem?_map, List.getElem?_modify, List.getElem?_modify, List.getElem?_map]
  cases w.instances[i]? with
  | none => rfl
  | some found =>
      by_cases hi : index = i
      · simp [hi, PlanInstance.rename]
      · simp [hi]

include hf

/-! ## Steps and bodies -/

include hblind hcalls in
/-- A renamed step does in a renamed frame what the step does. -/
theorem Step.run_mirrors (parallel : Bool) (step : Step) :
    StepExec.Mirrors f Eq (step.run env calls parallel)
      ((step.rename f).run (env.rename f enumeration) other parallel) := by
  cases step with
  | action name arguments returns =>
      exact Step.runAction_mirrors hf rfl hblind parallel name arguments returns
  | addBelief l => exact Step.runAddBelief_mirrors hf l
  | removeBelief l => exact Step.runRemoveBelief_mirrors hf l
  | achieve l immediately => exact Step.runAchieve_mirrors hf hcalls l immediately
  | unify l guard parallelUnify =>
      exact Step.runUnify_mirrors hf env _ rfl rfl l guard parallelUnify
  | test condition =>
      refine .bind .get fun frame renamed hframe => ?_
      rw [hframe.world.store, hframe.context]
      exact StepExec.ofExcept_mirrors
        (Expression.evaluateFuzzy_rename hf frame.world.store frame.context condition)
  | assign name e => exact Step.runAssign_mirrors hf name e
  | increment name => exact Step.runCount_mirrors hf name 1
  | decrement name => exact Step.runCount_mirrors hf name (-1)
  | rule call => exact hcalls.callRule call

include hblind hcalls

theorem Body.runSequence_mirrors (steps : List Step) :
    StepExec.Mirrors f Eq (Body.runSequence env calls steps)
      (Body.runSequence (env.rename f enumeration) other (steps.map (Step.rename f))) := by
  unfold Body.runSequence Conjunction.inTurn
  generalize Confidence.full = least
  generalize 0 = count
  induction steps generalizing least count with
  | nil => exact .pure rfl
  | cons step rest ih =>
      refine .bindEq (step.run_mirrors hf hblind hcalls false) fun x => ?_
      exact .ite Iff.rfl (ih _ _) (.pure rfl)

theorem Body.runEach_mirrors (c : Context) (steps : List Step) {w renamed : World}
    (hw : w.Renames f renamed) :
    List.Forall₂ (Both Halt.kind Eq) (Body.runEach env calls c steps w).1
        (Body.runEach (env.rename f enumeration) other (c.rename f) (steps.map (Step.rename f))
          renamed).1 ∧
      (Body.runEach env calls c steps w).2.Renames f
        (Body.runEach (env.rename f enumeration) other (c.rename f) (steps.map (Step.rename f))
          renamed).2 := by
  induction steps generalizing w renamed with
  | nil => exact ⟨.nil, hw⟩
  | cons step rest ih =>
      obtain ⟨hresult, hframe⟩ :=
        step.run_mirrors hf hblind hcalls true ⟨w, c⟩ ⟨renamed, c.rename f⟩ ⟨hw, rfl⟩
      obtain ⟨hresults, hafter⟩ := ih hframe.world
      rw [List.map_cons, Body.runEach_cons, Body.runEach_cons]
      exact ⟨.cons hresult hresults, hafter⟩

theorem Body.runParallel_mirrors (steps : List Step) (c : Context) :
    Exec.Mirrors f Eq (Body.runParallel env calls steps c)
      (Body.runParallel (env.rename f enumeration) other (steps.map (Step.rename f))
        (c.rename f)) := by
  intro w renamed hw
  obtain ⟨hresults, hafter⟩ := Body.runEach_mirrors hf hblind hcalls c steps hw
  have hcollect := Body.collect_both hresults
  unfold Body.runParallel
  rw [bind_apply, bind_apply, lift_apply, lift_apply]
  dsimp only
  generalize Body.collect (Body.runEach env calls c steps w).1 = left at hcollect ⊢
  generalize Body.collect (Body.runEach (env.rename f enumeration) other (c.rename f)
    (steps.map (Step.rename f)) renamed).1 = right at hcollect ⊢
  cases hcollect with
  | ok hab =>
      cases hab
      exact ⟨.ok rfl, hafter⟩
  | error he => exact ⟨.error he, hafter⟩

/-! ## Plans -/

omit hblind hcalls in
theorem Plan.instantiate_mirrors (p : Plan) (event : Literal) :
    Exec.Mirrors f (Becomes (Option.map (Context.rename f))) (p.instantiate event)
      ((p.rename f).instantiate (event.rename f)) := by
  refine .bind .get fun w renamed hw => ?_
  have hmatch : Match.bind renamed.store (p.rename f).trigger.literal (event.rename f) =
      (Match.bind w.store p.trigger.literal event).map (BindingSet.rename f) := by
    change Match.bind _ (p.trigger.literal.rename f) _ = _
    rw [hw.store, p.trigger.literal.rename_eq_substitute]
    exact Match.bind_rename hf (fun x => x.name_rename f) w.store _ event
  have hvars : (p.rename f).trigger.literal.vars.length = p.trigger.literal.vars.length := by
    change (p.trigger.literal.rename f).vars.length = _
    rw [Literal.vars_rename hf, List.length_map]
  rw [hmatch, hvars]
  cases Match.bind w.store p.trigger.literal event with
  | none => exact .pure rfl
  | some bindings =>
      dsimp only [Option.map_some]
      rw [BindingSet.size_rename]
      split
      · exact .pure rfl
      · refine .bind (Exec.onStore_mirrors (p.context_rename hf)) fun c _ hc => ?_
        cases hc
        refine .bind (StepExec.inContext_mirrors c
          (StepExec.writing_mirrors (BindingSet.apply_rename hf bindings))) ?_
        rintro ⟨_, after⟩ ⟨_, after'⟩ ⟨_, hafter⟩
        cases hafter
        exact .pure rfl

omit hblind hcalls in
theorem Plan.checkGuard_mirrors (p : Plan) (c : Context) :
    Exec.Mirrors f Eq (p.checkGuard env c)
      ((p.rename f).checkGuard (env.rename f enumeration) (c.rename f)) := by
  unfold Plan.checkGuard
  dsimp only [Plan.rename]
  cases p.guard with
  | none => exact .pure rfl
  | some condition =>
      refine .bind .get fun w renamed hw => ?_
      have hverdict := Expression.evaluateFuzzy_rename hf w.store c condition
      rw [← hw.store] at hverdict
      generalize Expression.evaluateFuzzy w.store c condition = left at hverdict ⊢
      generalize Expression.evaluateFuzzy renamed.store (c.rename f)
        (ExpressionOf.rename f condition) = right at hverdict ⊢
      cases hverdict with
      | ok hab =>
          cases hab
          exact .pure rfl
      | error he => exact .throw (congrArg some he)

theorem Plan.runBody_mirrors (p : Plan) (c : Context) :
    Exec.Mirrors f (fun a b => a.1 = b.1 ∧ b.2 = a.2.rename f) (p.runBody env calls c)
      ((p.rename f).runBody (env.rename f enumeration) other (c.rename f)) := by
  unfold Plan.runBody
  rw [Plan.isParallel_rename]
  split
  · exact .bindEq (Body.runParallel_mirrors hf hblind hcalls p.body c) fun _ => .pure ⟨rfl, rfl⟩
  · exact StepExec.inContext_mirrors c (Body.runSequence_mirrors hf hblind hcalls p.body)

/-- A renamed plan comes to the renamed outcome. -/
theorem Plan.execute_mirrors (p : Plan) (event : Trigger) (c : Context) :
    Exec.Mirrors f (Becomes (PlanOutcome.rename f)) (p.execute env calls event c)
      ((p.rename f).execute (env.rename f enumeration) other (event.rename f) (c.rename f)) := by
  refine .bind (p.runBody_mirrors hf hblind hcalls c) ?_
  rintro ⟨⟨result, executed⟩, after⟩ ⟨_, after'⟩ ⟨hresult, hafter⟩
  cases hresult
  cases hafter
  dsimp only
  refine .bindEq (.modifying fun w renamed hw => ⟨hw.host, hw.beliefs, ?_, hw.emitted,
    hw.instances, hw.enumerations⟩) fun _ => ?_
  · dsimp only
    rw [hw.library]
    rfl
  · have hend : Becomes (PlanOutcome.rename f)
        { plan := p
          event
          state := if env.strategy.accepts result then .succeeded else .failed
          result
          reported := if p.isAtomic then .truth else result
          executed }
        { plan := p.rename f
          event := event.rename f
          state := if env.strategy.accepts result then .succeeded else .failed
          result
          reported := if (p.rename f).isAtomic then .truth else result
          executed } := by
      rw [Plan.isAtomic_rename]
      rfl
    refine .ite Iff.rfl (.bind .get fun w renamed hw => .bindEq ?_ fun _ => .pure hend) (.pure hend)
    have hgoal := Exec.emit_mirrors (f := f)
      ⟨.deleteGoal, after.instantiate w.store p.trigger.literal⟩
    rw [Trigger.rename, ← Context.instantiate_rename hf, ← hw.store] at hgoal
    exact hgoal

/-! ## Answering triggers -/

theorem Execution.dispatchTo_mirrors (event : Trigger) (plans : List Plan) :
    Exec.Mirrors f (Becomes (Option.map (PlanOutcome.rename f)))
      (Execution.dispatchTo env calls event plans)
      (Execution.dispatchTo (env.rename f enumeration) other (event.rename f)
        (plans.map (Plan.rename f))) := by
  induction plans with
  | nil => exact .pure rfl
  | cons p rest ih =>
      refine .bind (p.instantiate_mirrors hf event.literal) fun found _ hfound => ?_
      cases hfound
      cases found with
      | none => exact ih
      | some c =>
          refine .bindEq (Execution.track_mirrors p event) fun index => ?_
          refine .bindEq (p.checkGuard_mirrors hf c) fun accepted => ?_
          cases accepted with
          | false => exact ih
          | true =>
              refine .bindEq (Execution.setState_mirrors index .guardChecked) fun _ => ?_
              refine .bindEq (Execution.setState_mirrors index .executing) fun _ => ?_
              refine .bind (p.execute_mirrors hf hblind hcalls event c) fun outcome _ houtcome => ?_
              cases houtcome
              refine .bindEq (Execution.setState_mirrors index outcome.state) fun _ => ?_
              exact .pure rfl

theorem Execution.dispatchWith_mirrors (event : Trigger) :
    Exec.Mirrors f (Becomes (Option.map (PlanOutcome.rename f)))
      (Execution.dispatchWith env calls event)
      (Execution.dispatchWith (env.rename f enumeration) other (event.rename f)) := by
  refine .bind .get fun w renamed hw => ?_
  rw [hw.library, PlanLibrary.candidates_rename]
  exact Execution.dispatchTo_mirrors hf hblind hcalls event _

/-! ## Calling rules -/

theorem Execution.tryRule_mirrors (call : Literal) (r : Rule) :
    Exec.Mirrors f (Becomes (Option.map fun answer => (answer.1, answer.2.rename f)))
      (Execution.tryRule env calls call r)
      (Execution.tryRule (env.rename f enumeration) other (call.rename f) (r.rename f)) := by
  refine .bind .get fun w renamed hw => ?_
  have hmatch : Match.bind renamed.store (r.rename f).head (call.rename f) =
      (Match.bind w.store r.head call).map (BindingSet.rename f) := by
    change Match.bind _ (r.head.rename f) _ = _
    rw [hw.store, r.head.rename_eq_substitute]
    exact Match.bind_rename hf (fun x => x.name_rename f) w.store _ call
  have hvars : (r.rename f).head.vars.length = r.head.vars.length := by
    change (r.head.rename f).vars.length = _
    rw [Literal.vars_rename hf, List.length_map]
  rw [hmatch, hvars]
  cases Match.bind w.store r.head call with
  | none => exact .pure rfl
  | some bindings =>
      dsimp only [Option.map_some]
      rw [BindingSet.size_rename]
      split
      · exact .pure rfl
      · refine .bind (Exec.onStore_mirrors (r.context_rename hf)) fun c _ hc => ?_
        cases hc
        refine .bind (StepExec.inContext_mirrors c
          (StepExec.writing_mirrors (Rule.bindHeads_rename hf bindings.bindings))) ?_
        rintro ⟨_, bound⟩ ⟨_, bound'⟩ ⟨_, hbound⟩
        cases hbound
        refine .bind (StepExec.inContext_mirrors bound
          (Body.runSequence_mirrors hf hblind hcalls r.body)) ?_
        rintro ⟨⟨result, executed⟩, after⟩ ⟨_, after'⟩ ⟨hresult, hafter⟩
        cases hresult
        cases hafter
        exact .pure rfl

omit hf hblind hcalls in
theorem Exec.enumerate_mirrors (horders : env.enumeration.Renames f enumeration) (c : Context) :
    Exec.Mirrors f (Becomes (List.map (Variable.rename f))) (Exec.enumerate env c)
      (Exec.enumerate (env.rename f enumeration) (c.rename f)) := by
  intro w renamed hw
  refine ⟨.ok ?_, hw.host, hw.beliefs, hw.library, hw.emitted, hw.instances, ?_⟩
  · change enumeration.order renamed.enumerations (c.vars.map (Variable.rename f)) = _
    rw [hw.enumerations]
    exact horders w.enumerations c.vars
  · exact congrArg (· + 1) hw.enumerations

variable (horders : env.enumeration.Renames f enumeration)

include horders

theorem Execution.tryRules_mirrors (call : Literal) (rules : List Rule) :
    StepExec.Mirrors f Eq (Execution.tryRules env calls call rules)
      (Execution.tryRules (env.rename f enumeration) other (call.rename f)
        (rules.map (Rule.rename f))) := by
  induction rules with
  | nil => exact .pure rfl
  | cons r rest ih =>
      refine .bind (StepExec.onWorld_mirrors
        (Execution.tryRule_mirrors hf hblind hcalls call r)) fun found _ hfound => ?_
      cases hfound
      cases found with
      | none => exact ih
      | some answer =>
          refine .ite Iff.rfl (.bind (StepExec.onWorld_mirrors
            (Exec.enumerate_mirrors horders answer.2)) fun vars _ hvars => ?_) ih
          cases hvars
          exact .bindEq (StepExec.writing_mirrors (Context.propagate_rename hf vars)) fun _ =>
            .pure rfl

theorem Execution.callRuleWith_mirrors (l : Literal) :
    StepExec.Mirrors f Eq (Execution.callRuleWith env calls l)
      (Execution.callRuleWith (env.rename f enumeration) other (l.rename f)) := by
  refine .bind .get fun frame renamed hframe => ?_
  dsimp only
  rw [hframe.world.store, hframe.context, Context.fill_rename hf]
  have hrules : (env.rename f enumeration).rules.filter
      (fun r => r.accepts ((frame.context.fill frame.world.store l).rename f)) =
        (env.rules.filter fun r => r.accepts (frame.context.fill frame.world.store l)).map
          (Rule.rename f) := by
    change (env.rules.map (Rule.rename f)).filter _ = _
    rw [List.filter_map]
    congr 2
    funext r
    exact r.accepts_rename _
  rw [hrules, List.isEmpty_map]
  split
  · exact .throw rfl
  · exact Execution.tryRules_mirrors hf hblind hcalls horders _ _

omit hcalls in
/-- The calls open to steps follow a renaming, however deep they may be nested. -/
theorem Execution.callsTo_mirror (depth : Nat) :
    (Execution.callsTo env depth).Mirror f
      (Execution.callsTo (env.rename f enumeration) depth) := by
  induction depth with
  | zero => exact ⟨fun _ => .throw rfl, fun _ => .throw rfl⟩
  | succ n ih =>
      exact ⟨Execution.dispatchWith_mirrors hf hblind ih,
        Execution.callRuleWith_mirrors hf hblind ih horders⟩

end Executions

end Deliberation
