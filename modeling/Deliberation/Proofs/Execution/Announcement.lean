import Deliberation.Proofs.Execution.Following
import Deliberation.Proofs.Execution.Frame
import Deliberation.Proofs.Matching.Soundness

/-!
# The goal that a failed plan announces

A plan is bound to an event before its body runs, and the goal that it announces
when the body fails is made of its trigger literal afterwards.  At the start the
trigger literal stands for the event.  So the announced goal is the event as long
as the body leaves what is in the place of the trigger's variables, and it is
another goal as soon as the body has bound one of them to something else.
-/

namespace Deliberation

namespace Context

/-- What stands in the place of a variable in a literal that a context instantiates. -/
def inPlaceOf (s : Store) (c : Context) (name : Path) : Term :=
  match c.get? name with
  | some known => (known.value? s).getD (.var known)
  | none => .raw .empty

theorem instantiate_eq (s : Store) (c : Context) (l : Literal) :
    c.instantiate s l = l.substitute fun x => c.inPlaceOf s x.name := rfl

theorem inPlaceOf_of_value? {s : Store} {c : Context} {name : Path} {t : Term}
    (h : c.value? s name = some t) : c.inPlaceOf s name = t := by
  obtain ⟨x, hx, hvalue⟩ := Option.bind_eq_some_iff.1 h
  rw [inPlaceOf, hx]
  dsimp only
  rw [hvalue, Option.getD_some]

/-- What stands in the place of a variable is its own, unless it is a mutex variable. -/
theorem inPlaceOf_eq {c after : Context} {name : Path} (hkept : after.get? name = c.get? name)
    (hmutex : ∀ x i, c.get? name = some x → x.cell ≠ .mutex i) (s s' : Store) :
    after.inPlaceOf s' name = c.inPlaceOf s name := by
  rw [inPlaceOf, inPlaceOf, hkept]
  cases hx : c.get? name with
  | none => rfl
  | some x =>
      obtain ⟨known, cell⟩ := x
      cases cell with
      | free value => rfl
      | constant value => rfl
      | mutex i => exact absurd rfl (hmutex _ i hx)
      | relocate target value => rfl

theorem owns_foldl_insert {s : Store} {c : Context} (howns : c.Owns s) {vars : List Variable}
    (hvars : ∀ x ∈ vars, ∀ i, x.cell ≠ .mutex i) : (vars.foldl insert c).Owns s := by
  induction vars generalizing c with
  | nil => exact howns
  | cons x rest ih =>
      obtain ⟨hfirst, hrest⟩ := List.forall_mem_cons.1 hvars
      refine ih (howns.insert (Nat.le_refl _) ?_ ?_) hrest
      · exact fun i hi => absurd hi (hfirst i)
      · exact fun i _ _ hi => absurd hi (hfirst i)

end Context

theorem World.store_withStore (w : World) (s : Store) : (w.withStore s).store = s := rfl

theorem Exec.onStore_apply {α : Type} (operation : StateM Store α) (w : World) :
    Exec.onStore operation w = (.ok (operation w.store).1, w.withStore (operation w.store).2) := rfl

theorem Exec.enumerate_apply (env : Environment) (c : Context) (w : World) :
    Exec.enumerate env c w =
      (.ok (env.enumeration.order w.enumerations c.vars), w.countEnumeration) := rfl

/-- Writing to a context of its own changes the store of the world and nothing else in it. -/
theorem StepExec.inContext_writing {α : Type} (c : Context) (operation : Context.Writing α)
    (w : World) :
    StepExec.inContext c (StepExec.writing operation) w =
      match operation ⟨w.store, c⟩ with
      | (.ok a, scope) => (.ok (a, scope.context), w.withStore scope.store)
      | (.error e, scope) => (.error (.failed (.term e)), w.withStore scope.store) := by
  unfold StepExec.inContext StepExec.writing
  simp only [bind_apply, get_apply]
  cases operation ⟨w.store, c⟩ with
  | mk result scope => cases result <;> rfl

namespace Plan

/-- A new context of a plan owns its slots. -/
theorem owns_context (p : Plan) (s : Store) : (p.context s).1.Owns (p.context s).2 := by
  refine Context.owns_foldl_insert (Context.owns_ofVariables p.vars s) ?_
  intro x hx i
  obtain ⟨directive, -, hdirective⟩ := List.mem_filterMap.1 hx
  cases directive with
  | atomic => cases hdirective
  | parallel => cases hdirective
  | constant name value =>
      cases hdirective
      rintro ⟨⟩

/-- A plan that is bound to an event has its match written to a new context. -/
theorem match_of_instantiate {p : Plan} {event : Literal} {w started : World} {c : Context}
    (h : p.instantiate event w = (.ok (some c), started)) :
    ∃ b, Match.bind w.store p.trigger.literal event = some b ∧
      b.size = p.trigger.literal.vars.length ∧
      b.apply ⟨(p.context w.store).2, (p.context w.store).1⟩ = (.ok (), ⟨started.store, c⟩) := by
  unfold instantiate at h
  rw [bind_apply, get_apply] at h
  dsimp only at h
  cases hbind : Match.bind w.store p.trigger.literal event with
  | none =>
      rw [hbind] at h
      cases h
  | some b =>
      rw [hbind] at h
      dsimp only at h
      by_cases hsize : b.size = p.trigger.literal.vars.length
      · refine ⟨b, rfl, hsize, ?_⟩
        rw [if_neg (not_not_intro hsize)] at h
        simp only [bind_apply, Exec.onStore_apply, StepExec.inContext_writing,
          World.store_withStore] at h
        cases happly : b.apply ⟨(p.context w.store).2, (p.context w.store).1⟩ with
        | mk result scope =>
            rw [happly] at h
            cases result with
            | error e => cases h
            | ok value =>
                cases h
                rfl
      · rw [if_pos hsize] at h
        cases h

/-- What the match found stands in the place of the trigger's variables. -/
theorem inPlaceOf_of_instantiate {p : Plan} {event : Literal} {w started : World} {c : Context}
    (h : p.instantiate event w = (.ok (some c), started)) :
    ∃ b, Match.bind w.store p.trigger.literal event = some b ∧
      ∀ x ∈ p.trigger.literal.occurrences,
        c.inPlaceOf started.store x.name = b.substitution x.name := by
  obtain ⟨b, hbind, hsize, happly⟩ := match_of_instantiate h
  have hdrawn := Match.drawn_of_bind hbind
  -- The new context owns its slots, so that one binding does not overwrite another.
  have hwritten := BindingSet.written_of_apply (p.owns_context w.store) hdrawn.nodup happly
  refine ⟨b, hbind, ?_⟩
  intro x hx
  obtain ⟨t, ht⟩ := Option.isSome_iff_exists.1 (hdrawn.isSome_get? hsize hx)
  rw [BindingSet.substitution_of_get? ht]
  refine Context.inPlaceOf_of_value? ((hwritten.value x.name).trans ?_)
  rw [ht, Option.some_or]

/--
The trigger literal of a plan can be compared with an event: the event has
neither variables nor boxes, the trigger literal has no boxes, and the two agree
in what a match does not ask for.
-/
structure Comparable (p : Plan) (event : Literal) : Prop where
  ground : event.occurrences = []
  boxes : event.boxes = []
  plain : p.trigger.literal.boxes = []
  functor : p.trigger.literal.functor = event.functor
  marks : p.trigger.literal.markedAlike event = true

/-- At the start the trigger literal stands for the event. -/
theorem Comparable.identity_of_instantiate {p : Plan} {event : Literal} {w started : World}
    {c : Context} (hevent : p.Comparable event)
    (h : p.instantiate event w = (.ok (some c), started)) :
    (c.instantiate started.store p.trigger.literal).identity = event.identity := by
  obtain ⟨b, hbind, hplace⟩ := inPlaceOf_of_instantiate h
  rw [← Match.identity_of_bind hevent.plain hevent.boxes hevent.ground hevent.functor hevent.marks
    hbind, Context.instantiate_eq, Literal.identity_substitute_iff]
  intro x hx
  rw [hplace x (p.trigger.literal.argumentVars_subset hx)]

/-- Later it stands for the event as long as the same is in the place of its variables. -/
theorem Comparable.equal_iff {p : Plan} {event : Literal} {w started : World} {c : Context}
    (hevent : p.Comparable event) (h : p.instantiate event w = (.ok (some c), started))
    (heap : Heap) (after : Context) (s : Store) :
    (after.instantiate s p.trigger.literal).equal heap event = true ↔
      ∀ x ∈ p.trigger.literal.argumentVars,
        (after.inPlaceOf s x.name).identity = (c.inPlaceOf started.store x.name).identity := by
  rw [Literal.equal_iff_identity heap hevent.boxes, ← hevent.identity_of_instantiate h,
    Context.instantiate_eq, Context.instantiate_eq, Literal.identity_substitute_iff]

/-- A plan that failed has run its body to the end, and announces its goal in what the body left. -/
theorem conclude_of_failed {env : Environment} {calls : Calls} {p : Plan} {event : Trigger}
    {c : Context} {before ended : World} {outcome : PlanOutcome}
    (h : p.execute env calls event c before = (.ok outcome, ended))
    (hfailed : outcome.state = .failed) :
    ∃ answer after middle, p.runBody env calls c before = (.ok (answer, after), middle) ∧
      ended = middle.conclude p event (after.instantiate middle.store p.trigger.literal) false := by
  cases hbody : p.runBody env calls c before with
  | mk result middle =>
      cases result with
      | error halt =>
          unfold execute at h
          rw [bind_apply, hbody] at h
          cases h
      | ok found =>
          obtain ⟨⟨result, executed⟩, after⟩ := found
          rw [execute_of_runBody hbody event] at h
          cases h
          refine ⟨_, after, middle, rfl, ?_⟩
          cases haccepts : env.strategy.accepts result with
          | false => rfl
          | true =>
              rw [haccepts] at hfailed
              cases hfailed

/--
A plan that fails announces the deletion of a goal after all that its body
raised.  The goal is the event that the plan was bound to exactly when the body
has left the same in the place of the variables in the trigger's arguments.  So
it is whenever none of them is a mutex variable and the body, if its steps run in
turn, has no step that can bind one of them.
-/
theorem execute_announces_event_iff_kept {env : Environment} {calls : Calls} {p : Plan}
    {event : Trigger} {c : Context} {w started before ended : World} {outcome : PlanOutcome}
    (hkind : event.kind ≠ .deleteGoal) (hevent : p.Comparable event.literal)
    (hinstantiate : p.instantiate event.literal w = (.ok (some c), started))
    (hexecute : p.execute env calls event c before = (.ok outcome, ended))
    (hfailed : outcome.state = .failed) :
    ∃ answer after middle goal,
      p.runBody env calls c before = (.ok (answer, after), middle) ∧
      ended.emitted = middle.emitted ++ [⟨.deleteGoal, goal⟩] ∧
      (goal.equal ended.store.heap event.literal = true ↔
        ∀ x ∈ p.trigger.literal.argumentVars,
          (after.inPlaceOf middle.store x.name).identity =
            (c.inPlaceOf started.store x.name).identity) ∧
      ((∀ x ∈ p.trigger.literal.argumentVars,
          (∀ y i, c.get? x.name = some y → y.cell ≠ .mutex i) ∧
          (p.isParallel = false → ∀ step ∈ p.body, step.leaves x.name = true)) →
        goal.equal ended.store.heap event.literal = true) := by
  obtain ⟨answer, after, middle, hbody, rfl⟩ := conclude_of_failed hexecute hfailed
  have hequal := hevent.equal_iff hinstantiate
  refine ⟨answer, after, middle, after.instantiate middle.store p.trigger.literal, hbody, ?_,
    hequal _ after middle.store, ?_⟩
  · rw [World.conclude_eq]
    simp [World.deletions, hkind]
  · -- a kept variable that is no mutex variable has the same value in every store
    intro hkept
    rw [hequal _ after middle.store]
    intro x hx
    obtain ⟨hmutex, hsteps⟩ := hkept x hx
    have hplace := Context.inPlaceOf_eq (runBody_keeps hsteps hbody) hmutex started.store
      middle.store
    rw [hplace]

/-- A body that counts in a variable of its own before it fails. -/
theorem execute_announces_event_beside_counter :
    let name (text : String) : Path := ⟨[text]⟩
    let g (argument : Term) : Literal := ⟨⟨.empty, "g"⟩, [argument], [], false, false⟩
    let event : Trigger := ⟨.addGoal, g (.raw (.int 1))⟩
    let p := build .empty ⟨.addGoal, g (.var (.unbound (name "N")))⟩ none
      [.assign (name "M") (.var (name "N")), .increment (name "M"),
        .test (.constant (.bool false))] []
    ∃ c started outcome ended goal, p.instantiate event.literal {} = (.ok (some c), started) ∧
      p.execute {} (Execution.callsTo {} 0) event c started = (.ok outcome, ended) ∧
      outcome.state = .failed ∧ ended.emitted = [⟨.deleteGoal, goal⟩] ∧
      goal.equal ended.store.heap event.literal = true := by
  intro name g event p
  let n : Variable := ⟨name "N", .free (some (.raw (.int 1)))⟩
  let c (own : Option Term) : Context := ⟨[n, ⟨name "M", .free own⟩]⟩
  have hkind : event.kind ≠ .deleteGoal := by decide
  have hevent : p.Comparable event.literal := ⟨rfl, rfl, rfl, rfl, rfl⟩
  have hinstantiate : p.instantiate event.literal {} = (.ok (some (c none)), {}) := rfl
  have hbody : p.runBody {} (Execution.callsTo {} 0) (c none) {} =
      (.ok ((.falsity, 3), c (some (.raw (.int (1 + 1))))), {}) := rfl
  have hexecute := execute_of_runBody hbody event
  obtain ⟨answer, after, middle, goal, hran, hemitted, -, hkept⟩ :=
    execute_announces_event_iff_kept hkind hevent hinstantiate hexecute rfl
  cases hbody.symm.trans hran
  refine ⟨_, _, _, _, goal, hinstantiate, hexecute, rfl, hemitted, hkept ?_⟩
  intro x hx
  rw [List.mem_singleton.1 hx]
  refine ⟨?_, fun _ => by decide⟩
  rintro y i ⟨⟩ ⟨⟩

/-- A plan that counts in the variable of its trigger and fails on `g(1)` announces `g(2)`. -/
theorem execute_announces_counted_goal :
    let name : Path := ⟨["N"]⟩
    let g (argument : Term) : Literal := ⟨⟨.empty, "g"⟩, [argument], [], false, false⟩
    let event : Trigger := ⟨.addGoal, g (.raw (.int 1))⟩
    let p := build .empty ⟨.addGoal, g (.var (.unbound name))⟩ none
      [.increment name, .test (.constant (.bool false))] []
    ∃ c started outcome ended, p.instantiate event.literal {} = (.ok (some c), started) ∧
      p.execute {} (Execution.callsTo {} 0) event c started = (.ok outcome, ended) ∧
      outcome.state = .failed ∧ ended.emitted = [⟨.deleteGoal, g (.raw (.int 2))⟩] ∧
      (g (.raw (.int 2))).equal ended.store.heap event.literal = false := by
  intro name g event p
  let c (count : Int64) : Context := ⟨[⟨name, .free (some (.raw (.int count)))⟩]⟩
  have hinstantiate : p.instantiate event.literal {} = (.ok (some (c 1)), {}) := rfl
  have hbody : p.runBody {} (Execution.callsTo {} 0) (c 1) {} =
      (.ok ((.falsity, 2), c (1 + 1)), {}) := rfl
  have hexecute := execute_of_runBody hbody event
  exact ⟨_, _, _, _, hinstantiate, hexecute, rfl, rfl, rfl⟩

end Plan

end Deliberation
