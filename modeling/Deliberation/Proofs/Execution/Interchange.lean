import Deliberation.Proofs.Execution.Following
import Deliberation.Proofs.Plan.Remainder

/-!
# Plans that can stand for each other

A library refuses a plan when it has one with the same key.  The plan that it has
does the same as the refused one if nothing that the key leaves out tells them
apart: the annotations of their literals, the kinds of their variables and their
boxes.  Where one of these differs, the two may behave differently, and the
refused plan is lost.
-/

namespace Deliberation

/-! ## Steps -/

namespace Step

theorem resolveArguments_cleared (s : Store) (c : Context) (arguments : List Term) :
    resolveArguments s c (arguments.map Term.cleared) = resolveArguments s c arguments := by
  have hargument : ∀ t : Term, resolveArgument s c t.cleared = resolveArgument s c t := by
    intro t
    cases t with
    | raw v => rfl
    | var x => rfl
    | lit l => exact congrArg (fun l => Except.ok (Term.lit l)) (c.instantiate_cleared s l)
  induction arguments with
  | nil => rfl
  | cons t rest ih => rw [List.map_cons, resolveArguments, resolveArguments, hargument, ih]

theorem runAction_cleared (env : Environment) (parallel : Bool) (name : Path)
    (arguments : List Term) (returns : List Variable) :
    runAction env parallel name (arguments.map Term.cleared) (returns.map Variable.cleared) =
      runAction env parallel name arguments returns := by
  have hnames : (returns.map Variable.cleared).map Variable.name = returns.map Variable.name := by
    rw [List.map_map]
    rfl
  unfold runAction
  simp only [resolveArguments_cleared, hnames, List.length_map]

/-- A step does the same without the bindings of its variables. -/
theorem run_cleared (env : Environment) (calls : Calls) (parallel : Bool) (step : Step) :
    step.cleared.run env calls parallel = step.run env calls parallel := by
  cases step with
  | action name arguments returns => exact runAction_cleared env parallel name arguments returns
  | addBelief l =>
      change runAddBelief l.cleared = runAddBelief l
      simp only [runAddBelief, Context.ground_cleared]
  | removeBelief l =>
      change runRemoveBelief l.cleared = runRemoveBelief l
      simp only [runRemoveBelief, Context.ground_cleared]
  | achieve l immediately =>
      exact congrArg (runAchieve calls · immediately) l.substitute_var
  | unify l guard parallelUnify =>
      change runUnify env l.cleared (guard.map id) parallelUnify =
        runUnify env l guard parallelUnify
      simp only [runUnify, Unifier.unify_cleared, Option.map_id, id_eq]
  | test condition => rfl
  | assign name e => rfl
  | increment name => rfl
  | decrement name => rfl
  | rule call => exact congrArg calls.callRule call.substitute_var

/-- The variables of a step keep their names and kinds. -/
theorem vars_cleared (step : Step) :
    step.cleared.vars.map Variable.cleared = step.vars.map Variable.cleared := by
  have hliteral : ∀ l : Literal,
      l.cleared.occurrences.map Variable.cleared = l.occurrences.map Variable.cleared := by
    intro l
    rw [Literal.occurrences_cleared, Variable.map_cleared_cleared]
  unfold vars
  rw [← Variable.distinct_map_cleared, ← Variable.distinct_map_cleared]
  congr 1
  cases step with
  | action name arguments returns =>
      change (Term.occurrencesAll (arguments.map Term.cleared) ++
        returns.map Variable.cleared).map Variable.cleared = _
      rw [Term.occurrencesAll_cleared, ← List.map_append, Variable.map_cleared_cleared]
  | addBelief l => exact hliteral l
  | removeBelief l => exact hliteral l
  | achieve l immediately =>
      exact congrArg (fun l : Literal => l.occurrences.map Variable.cleared) l.substitute_var
  | unify l guard parallelUnify =>
      cases guard with
      | none =>
          change (l.cleared.occurrences ++ []).map Variable.cleared = _
          rw [List.map_append, hliteral, ← List.map_append]
      | some condition =>
          change (l.cleared.occurrences ++ named condition.vars).map Variable.cleared = _
          rw [List.map_append, hliteral, ← List.map_append]
  | test condition => rfl
  | assign name e => rfl
  | increment name => rfl
  | decrement name => rfl
  | rule call =>
      exact congrArg (fun l : Literal => l.occurrences.map Variable.cleared) call.substitute_var

end Step

/-! ## Bodies -/

namespace Body

variable (env : Environment) (calls : Calls) (steps : List Step)

theorem runSequence_cleared :
    runSequence env calls (steps.map Step.cleared) = runSequence env calls steps := by
  unfold runSequence
  rw [List.map_map]
  exact congrArg (fun run => Conjunction.inTurn env.strategy (steps.map run))
    (funext (Step.run_cleared env calls false))

theorem runEach_cleared (c : Context) :
    runEach env calls c (steps.map Step.cleared) = runEach env calls c steps := by
  funext w
  induction steps generalizing w with
  | nil => rfl
  | cons step rest ih =>
      rw [List.map_cons, runEach_cons, runEach_cons, Step.run_cleared, ih]

theorem runParallel_cleared (c : Context) :
    runParallel env calls (steps.map Step.cleared) c = runParallel env calls steps c := by
  unfold runParallel
  rw [runEach_cleared]

end Body

/-! ## Plans -/

namespace Plan

variable (p : Plan)

theorem context_cleared : p.cleared.context = p.context := by
  have hvars : p.cleared.vars.map Variable.cleared = p.vars.map Variable.cleared := by
    have hliteral : p.cleared.trigger.literal.vars = p.trigger.literal.vars.map Variable.cleared :=
      p.trigger.literal.vars_cleared
    have hbody : p.cleared.body = p.body.map Step.cleared := rfl
    unfold vars
    simp only [List.map_append, hliteral, Variable.map_cleared_cleared, hbody, List.flatMap_map,
      List.map_flatMap, Step.vars_cleared]
    rfl
  unfold context
  rw [Context.ofVariables_of_cleared hvars]
  rfl

/-- A plan is bound to an event as it is without the bindings of its variables. -/
theorem instantiate_cleared (event : Literal) :
    p.cleared.instantiate event = p.instantiate event := by
  have hliteral : p.cleared.trigger.literal = p.trigger.literal.cleared := rfl
  unfold instantiate
  simp only [context_cleared, hliteral, Match.bind_cleared, Literal.vars_cleared, List.length_map]

theorem runBody_cleared (env : Environment) (calls : Calls) (c : Context) :
    p.cleared.runBody env calls c = p.runBody env calls c := by
  have hbody : p.cleared.body = p.body.map Step.cleared := rfl
  have hparallel : p.cleared.isParallel = p.isParallel := rfl
  unfold runBody
  rw [hbody, hparallel, Body.runParallel_cleared, Body.runSequence_cleared]

/-- A plan is executed as it is without the bindings of its variables; the outcome names it. -/
theorem execute_cleared (env : Environment) (calls : Calls) (event : Trigger) (c : Context) :
    p.execute env calls event c =
      (fun outcome => { outcome with plan := p }) <$> p.cleared.execute env calls event c := by
  funext w
  rw [map_eq_pure_bind, bind_apply]
  cases hbody : p.runBody env calls c w with
  | mk result after =>
      have hcleared := hbody
      rw [← runBody_cleared] at hcleared
      cases result with
      | error halt =>
          unfold execute
          rw [bind_apply, bind_apply, hbody, hcleared]
      | ok answer =>
          obtain ⟨⟨result, executed⟩, left⟩ := answer
          -- Outcomes are counted by key, and the goal of a failed plan is read by names.
          rw [execute_of_runBody hbody, execute_of_runBody hcleared,
            ← left.instantiate_cleared after.store p.trigger.literal]
          rfl

/-- Two plans that no event, world or execution tells apart. -/
structure Interchangeable (p q : Plan) : Prop where
  instantiate : ∀ event, p.instantiate event = q.instantiate event
  checkGuard : ∀ env c, p.checkGuard env c = q.checkGuard env c
  /-- The outcomes name the plans they come from, and agree in all else. -/
  execute : ∀ env calls event c,
    p.execute env calls event c =
      (fun outcome => { outcome with plan := p }) <$> q.execute env calls event c

theorem interchangeable_of_cleared {p q : Plan} (h : p.cleared = q.cleared) :
    p.Interchangeable q where
  instantiate event := by rw [← instantiate_cleared, h, instantiate_cleared]
  checkGuard env c := by
    have hguard : p.cleared.guard = q.cleared.guard := by rw [h]
    change p.guard = q.guard at hguard
    rw [Plan.checkGuard, Plan.checkGuard, hguard]
  execute env calls event c := by
    rw [execute_cleared, execute_cleared q, h, Functor.map_map]

end Plan

/-! ## Libraries -/

namespace PlanLibrary

/--
A plan that is refused has its key in common with a plan of the library, and each
such plan can stand for it if it agrees with it in what the key leaves out.
-/
theorem interchangeable_of_refused {library : PlanLibrary} {p : Plan}
    (hrefused : (library.add p).1 = false) (hp : p.Made)
    (hlibrary : ∀ q ∈ library.candidates p.trigger, q.Made) :
    (∃ q ∈ library.candidates p.trigger, q.key = p.key) ∧
      ∀ q ∈ library.candidates p.trigger, q.key = p.key → q.remainder = p.remainder →
        q.Interchangeable p := by
  constructor
  · by_cases hknown : (library.candidates p.trigger).any fun q => q.key = p.key
    · simpa using hknown
    · simp [add, hknown] at hrefused
  · intro q hq hkey hrest
    exact Plan.interchangeable_of_cleared (Plan.cleared_eq_of_key (hlibrary q hq) hp hkey hrest)

/-- A plan that differs from the one in the library in the slot of a mutex variable. -/
theorem interchangeable_beside_slots :
    let g (slot : SlotId) : Literal :=
      ⟨⟨.empty, "g"⟩, [.var ⟨⟨["M"]⟩, .mutex slot⟩], [], false, false⟩
    let plan (slot : SlotId) : Plan :=
      .build {} ⟨.addGoal, g slot⟩ none [.increment ⟨["M"]⟩, .addBelief (g slot)] [.atomic]
    let library := (PlanLibrary.empty.add (plan 0)).2
    (library.add (plan 1)).1 = false ∧ plan 0 ≠ plan 1 ∧ (plan 0).Interchangeable (plan 1) := by
  intro g plan library
  have hrefused : (library.add (plan 1)).1 = false := by decide
  have hgroup : library.candidates (plan 1).trigger = [plan 0] := rfl
  have hlibrary : ∀ q ∈ library.candidates (plan 1).trigger, q.Made := by
    rw [hgroup]
    rintro q hq
    cases List.mem_singleton.1 hq
    exact ⟨{}, rfl⟩
  have hmember : plan 0 ∈ library.candidates (plan 1).trigger := by
    rw [hgroup]
    exact List.mem_singleton_self _
  have hsame := (interchangeable_of_refused hrefused ⟨{}, rfl⟩ hlibrary).2 _ hmember rfl rfl
  refine ⟨hrefused, ?_, hsame⟩
  intro hequal
  cases hequal

/--
The plan of the library asks for an annotation that the refused one does not ask
for, and so the event that it would answer stays without an answer.
-/
theorem add_refuses_other_annotations :
    let goal (annotations : List Literal) : Literal :=
      ⟨⟨.empty, "g"⟩, [], annotations, false, false⟩
    let note : Literal := ⟨⟨.empty, "a"⟩, [.raw (.int 1)], [], false, false⟩
    let plan (annotations : List Literal) : Plan :=
      .build {} ⟨.addGoal, goal annotations⟩ none [] []
    let library := (PlanLibrary.empty.add (plan [note])).2
    (library.add (plan [])).1 = false ∧ library.candidates ⟨.addGoal, goal []⟩ = [plan [note]] ∧
      ((plan [note]).instantiate (goal []) {}).1 = .ok none ∧
      ((plan []).instantiate (goal []) {}).1 = .ok (some .empty) :=
  ⟨by decide, rfl, rfl, rfl⟩

end PlanLibrary

end Deliberation
