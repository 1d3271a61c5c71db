import Deliberation.Proofs.Execution.Announcement
import Deliberation.Proofs.Matching.Attempts

/-!
# The shape of contexts

A step binds variables of its context and adds free ones.  It neither drops a
variable nor unbinds it, and it changes neither its kind nor the value of a
constant.  What a step calls runs in contexts of its own, whose mutex variables
have new slots; so of the slots that are there before, a step writes to those of
its context alone, and an execution without a context to none.
-/

namespace Deliberation

variable {α β : Type}

/-! ## Actions -/

namespace ActionRegistry

/-- No registered action writes to the slot of a variable. -/
def KeepsSlots (registry : ActionRegistry) : Prop :=
  ∀ name parallel c arguments host,
    (registry.execute name parallel c arguments host).2.store.slots = host.store.slots

/-- All registered actions are built-in ones. -/
def BuiltIn (registry : ActionRegistry) : Prop :=
  ∀ name action, registry.get? name = some action → action = .print ∨ action = .throw

theorem builtIn_builtins : builtins.BuiltIn := by
  intro name action haction
  simp only [builtins, empty, register, get?, Table.get?_insert] at haction
  split at haction
  · exact .inr (Option.some.inj haction).symm
  · split at haction
    · exact .inl (Option.some.inj haction).symm
    · cases haction

/-- A built-in action leaves the store as it is. -/
theorem BuiltIn.store_execute {registry : ActionRegistry} (h : registry.BuiltIn) (name : String)
    (parallel : Bool) (c : Context) (arguments : List Term) (host : Host) :
    (registry.execute name parallel c arguments host).2.store = host.store := by
  unfold execute
  cases haction : registry.get? name with
  | none => rfl
  | some action =>
      dsimp only
      split
      · rfl
      · rcases h name action haction with rfl | rfl
        · rfl
        · cases arguments with
          | nil => rfl
          | cons condition rest =>
              simp only [Action.throw, Action.rawArgument, bind_apply, get_apply]
              cases condition.rawValue host.store with
              | error e => rfl
              | ok v =>
                  dsimp only [pure_apply]
                  cases host.store.heap.asBool v with
                  | error e => rfl
                  | ok raised => cases raised <;> rfl

theorem BuiltIn.keepsSlots {registry : ActionRegistry} (h : registry.BuiltIn) :
    registry.KeepsSlots :=
  fun name parallel c arguments host =>
    congrArg Store.slots (h.store_execute name parallel c arguments host)

end ActionRegistry

/-! ## Slots below a bound -/

/-- The slots below a bound are the same in two stores. -/
structure Store.Spares (n : Nat) (before after : Store) : Prop where
  size : n ≤ after.slots.size
  same : ∀ i < n, after.readSlot i = before.readSlot i

theorem Store.Spares.refl {n : Nat} {s : Store} (h : n ≤ s.slots.size) : Spares n s s :=
  ⟨h, fun _ _ => rfl⟩

theorem Store.Spares.trans {n : Nat} {first second third : Store} (h : Spares n first second)
    (h' : Spares n second third) : Spares n first third :=
  ⟨h'.size, fun i hi => (h'.same i hi).trans (h.same i hi)⟩

/-- The slots of a context do not lie below a bound. -/
def Context.Above (n : Nat) (c : Context) : Prop := ∀ i, c.HasSlot i → n ≤ i

theorem Context.Scope.Confined.spares {before after : Context.Scope} (h : before.Confined after)
    {n : Nat} (hsize : n ≤ before.store.slots.size) (habove : before.context.Above n) :
    Store.Spares n before.store after.store where
  size := Nat.le_trans hsize h.size
  same i hi := by
    refine h.spared i (Nat.lt_of_lt_of_le hi hsize) fun hslot => ?_
    exact absurd (habove i hslot) (Nat.not_le_of_lt hi)

theorem Context.Above.insert {n : Nat} {c : Context} (h : c.Above n) {x : Variable}
    (hx : ∀ i, x.cell = .mutex i → n ≤ i) : (c.insert x).Above n := by
  rintro i ⟨name, y, hy, hcell⟩
  rw [Context.get?_insert] at hy
  split at hy
  · cases hy
    exact hx i hcell
  · exact h i ⟨name, y, hy, hcell⟩

theorem Variable.spares_unboundCopy {n : Nat} {s : Store} (h : n ≤ s.slots.size) (x : Variable) :
    s.Spares n (x.unboundCopy s).2 ∧ ∀ i, (x.unboundCopy s).1.cell = .mutex i → n ≤ i := by
  unfold Variable.unboundCopy
  cases hcell : x.cell with
  | free value =>
      refine ⟨.refl h, ?_⟩
      rintro i ⟨⟩
  | constant value =>
      refine ⟨.refl h, ?_⟩
      intro i hi
      cases hcell.symm.trans hi
  | mutex slot =>
      refine ⟨⟨?_, ?_⟩, ?_⟩
      · exact Nat.le_of_lt (Nat.lt_of_le_of_lt h (Array.size_push .. ▸ Nat.lt_succ_self _))
      · intro i hi
        have hold : i < s.slots.size := Nat.lt_of_lt_of_le hi h
        change (s.slots.push none).getD i none = s.slots.getD i none
        simp [Array.getElem?_push, Nat.ne_of_lt hold]
      · rintro i ⟨⟩
        exact h
  | relocate target value =>
      refine ⟨.refl h, ?_⟩
      rintro i ⟨⟩

/-- The mutex variables of a new context have new slots. -/
theorem Context.spares_ofVariables {n : Nat} {s : Store} (h : n ≤ s.slots.size)
    (vars : List Variable) :
    s.Spares n (ofVariables vars s).2 ∧ (ofVariables vars s).1.Above n := by
  have hempty : Context.Above n empty := by
    rintro i ⟨name, x, ⟨⟩, hcell⟩
  refine ofVariables_induction (motive := fun c after => s.Spares n after ∧ c.Above n)
    ⟨.refl h, hempty⟩ ?_ vars
  rintro c middle x ⟨hspares, habove⟩
  obtain ⟨hlater, hslot⟩ := x.spares_unboundCopy hspares.size
  exact ⟨hspares.trans hlater, habove.insert hslot⟩

/-- The constants of a plan have no slots. -/
theorem Plan.spares_context {n : Nat} {s : Store} (h : n ≤ s.slots.size) (p : Plan) :
    s.Spares n (p.context s).2 ∧ (p.context s).1.Above n := by
  obtain ⟨hspares, habove⟩ := Context.spares_ofVariables h p.vars
  refine ⟨hspares, ?_⟩
  change Context.Above n (p.constants.foldl Context.insert (Context.ofVariables p.vars s).1)
  have hslots : ∀ x ∈ p.constants, ∀ i, x.cell = .mutex i → n ≤ i := by
    intro x hx i hi
    obtain ⟨directive, -, hdirective⟩ := List.mem_filterMap.1 hx
    cases directive with
    | atomic => cases hdirective
    | parallel => cases hdirective
    | constant name value =>
        cases hdirective
        cases hi
  generalize p.constants = constants at hslots ⊢
  generalize (Context.ofVariables p.vars s).1 = c at habove ⊢
  induction constants generalizing c with
  | nil => exact habove
  | cons x rest ih =>
      obtain ⟨hfirst, hrest⟩ := List.forall_mem_cons.1 hslots
      exact ih hrest (c.insert x) (habove.insert hfirst)

/-! ## Executions in a world -/

namespace Exec

/-- An execution leaves the slots below a bound as they are, and its result has a property. -/
def Spares (n : Nat) (Q : α → Prop) (x : Exec α) : Prop :=
  ∀ w, n ≤ w.store.slots.size →
    w.store.Spares n (x w).2.store ∧ ∀ a, (x w).1 = .ok a → Q a

namespace Spares

variable {n : Nat} {P : α → Prop} {Q : β → Prop}

theorem pure {a : α} (h : P a) : Spares n P (Pure.pure a) := by
  refine fun w hsize => ⟨.refl hsize, ?_⟩
  rintro _ ⟨⟩
  exact h

theorem throw (halt : Halt ExecutionError) : Spares n P (MonadExcept.throw halt) := by
  refine fun w hsize => ⟨.refl hsize, ?_⟩
  rintro _ ⟨⟩

theorem bind {x : Exec α} {f : α → Exec β} (hx : Spares n P x)
    (hf : ∀ a, P a → Spares n Q (f a)) : Spares n Q (x >>= f) := by
  intro w hsize
  obtain ⟨hspares, hresult⟩ := hx w hsize
  rw [bind_apply]
  cases happly : x w with
  | mk result after =>
      rw [happly] at hspares hresult
      cases result with
      | error halt =>
          refine ⟨hspares, ?_⟩
          rintro _ ⟨⟩
      | ok a =>
          obtain ⟨hlater, hlast⟩ := hf a (hresult a rfl) after hspares.size
          exact ⟨hspares.trans hlater, hlast⟩

/-- An execution that does not reach the store spares all slots. -/
theorem ofStore {x : Exec α} (h : ∀ w, (x w).2.store = w.store) :
    Spares n (fun _ => True) x := by
  refine fun w hsize => ⟨?_, fun _ _ => trivial⟩
  rw [h]
  exact .refl hsize

theorem get : Spares n (fun _ => True) (MonadState.get : Exec World) := ofStore fun _ => rfl

theorem weaken {x : Exec α} (h : Spares n P x) : Spares n (fun _ => True) x :=
  fun w hsize => ⟨(h w hsize).1, fun _ _ => trivial⟩

end Spares

/-- A new context is made of new slots. -/
theorem onStore_spares {n : Nat} {operation : StateM Store Context}
    (h : ∀ s : Store, n ≤ s.slots.size → s.Spares n (operation s).2 ∧ (operation s).1.Above n) :
    Spares n (Context.Above n) (onStore operation) := by
  intro w hsize
  rw [onStore_apply]
  obtain ⟨hspares, habove⟩ := h w.store hsize
  refine ⟨hspares, ?_⟩
  rintro _ ⟨⟩
  exact habove

end Exec

/-! ## Steps -/

/-- The scope that the steps of a frame write to. -/
def Frame.scope (frame : Frame) : Context.Scope := ⟨frame.world.store, frame.context⟩

/-- A step has bound variables of its context and added free ones. -/
def Frame.Evolves (before after : Frame) : Prop := before.scope.Evolves after.scope

namespace Frame.Evolves

theorem refl (frame : Frame) : frame.Evolves frame := Context.Scope.Evolves.refl _

theorem trans {first second third : Frame} (h : first.Evolves second) (h' : second.Evolves third) :
    first.Evolves third := Context.Scope.Evolves.trans h h'

end Frame.Evolves

/-- The calls that steps can make write to no slot but those of the calling context. -/
structure Calls.Confined (calls : Calls) : Prop where
  dispatch : ∀ event n, Exec.Spares n (fun _ => True) (calls.dispatch event)
  callRule : ∀ l, Moves Frame.Evolves (calls.callRule l)

namespace StepExec

theorem onWorld_apply (execution : Exec α) (frame : Frame) :
    onWorld execution frame =
      ((execution frame.world).1, { frame with world := (execution frame.world).2 }) := by
  unfold onWorld
  rw [bind_apply, get_apply]
  dsimp only
  cases execution frame.world with
  | mk result world => cases result <;> rfl

theorem writing_apply (operation : Context.Writing α) (frame : Frame) :
    writing operation frame =
      match operation frame.scope with
      | (.ok a, scope) => (.ok a, ⟨frame.world.withStore scope.store, scope.context⟩)
      | (.error e, scope) =>
          (.error (.failed (.term e)), ⟨frame.world.withStore scope.store, scope.context⟩) := by
  unfold writing
  rw [bind_apply, get_apply]
  dsimp only [Frame.scope]
  cases operation ⟨frame.world.store, frame.context⟩ with
  | mk result scope => cases result <;> rfl

theorem inContext_apply (c : Context) (steps : StepExec α) (w : World) :
    inContext c steps w =
      match steps ⟨w, c⟩ with
      | (.ok a, frame) => (.ok (a, frame.context), frame.world)
      | (.error halt, frame) => (.error halt, frame.world) := by
  unfold inContext
  rw [bind_apply, get_apply]
  dsimp only
  cases steps ⟨w, c⟩ with
  | mk result frame => cases result <;> rfl

theorem ofExcept_evolves (result : Except ExecutionError α) :
    Moves Frame.Evolves (ofExcept result) := by
  cases result with
  | ok a => exact .pure .refl a
  | error e => exact .throw .refl (Halt.failed e)

/-- An execution that writes to no slot leaves the scope of a step as it is. -/
theorem onWorld_evolves {execution : Exec α}
    (h : ∀ n, Exec.Spares n (fun _ => True) execution) :
    Moves Frame.Evolves (onWorld execution) := by
  intro frame
  obtain ⟨hsize, hsame⟩ := (h _ frame.world (Nat.le_refl _)).1
  have hslots : ∀ i, (frame.world.store.readSlot i).isSome →
      ((execution frame.world).2.store.readSlot i).isSome := by
    intro i hi
    by_cases hin : i < frame.world.store.slots.size
    · rwa [hsame i hin]
    · rw [Store.readSlot_of_size_le (Nat.le_of_not_lt hin)] at hi
      cases hi
  have hevolves : frame.Evolves ⟨(execution frame.world).2, frame.context⟩ := by
    refine ⟨⟨hsize, hslots, fun i hi _ => hsame i hi, id, id⟩, fun hx => ⟨_, hx, .refl _⟩, ?_⟩
    intro name y hnone hsome
    cases hnone.symm.trans hsome
  rw [onWorld_apply]
  exact hevolves

/-- What an operation does to a scope, it does to the scope of a frame. -/
theorem writing_moves {R : Context.Scope → Context.Scope → Prop} {operation : Context.Writing α}
    (h : Moves R operation) :
    Moves (fun before after : Frame => R before.scope after.scope) (writing operation) := by
  intro frame
  have hscope := h frame.scope
  rw [writing_apply]
  cases happly : operation frame.scope with
  | mk result scope =>
      rw [happly] at hscope
      cases result <;> exact hscope

theorem writing_evolves {operation : Context.Writing α}
    (h : Moves Context.Scope.Evolves operation) : Moves Frame.Evolves (writing operation) :=
  writing_moves h

/-- Steps in a context of new slots spare the old ones, and leave a context of new slots. -/
theorem inContext_spares {n : Nat} {c : Context} (hc : c.Above n) {steps : StepExec α}
    (h : Moves (fun before after => before.scope.Confined after.scope) steps) :
    Exec.Spares n (fun answer => answer.2.Above n) (inContext c steps) := by
  intro w hsize
  have hconfined := h ⟨w, c⟩
  rw [inContext_apply]
  cases happly : steps ⟨w, c⟩ with
  | mk result frame =>
      rw [happly] at hconfined
      have hspares : w.store.Spares n frame.world.store := hconfined.spares hsize hc
      cases result with
      | error halt =>
          refine ⟨hspares, ?_⟩
          rintro _ ⟨⟩
      | ok a =>
          refine ⟨hspares, ?_⟩
          rintro _ ⟨⟩
          exact fun i hi => hc i (hconfined.slots hi)

end StepExec

namespace Step

theorem bindResults_evolves (name : Path) (returns : List Variable) (outcome : Fuzzy Bool)
    (results : List Term) :
    Moves Frame.Evolves
      (if results.length < returns.length then
        StepExec.fail (.action name.text
          ("returned " ++ toString results.length ++ " values, " ++ toString returns.length ++
            " expected"))
      else do
        StepExec.writing (Context.bindAll ((returns.map Variable.name).zip results))
        pure outcome : StepExec (Fuzzy Bool)) := by
  split
  · exact .throw .refl _
  · exact .bind .trans (StepExec.writing_evolves (Context.bindAll_evolves _)) fun _ =>
      .pure .refl outcome

theorem runAction_evolves {env : Environment} (hactions : env.actions.KeepsSlots)
    (parallel : Bool) (name : Path) (arguments : List Term) (returns : List Variable) :
    Moves Frame.Evolves (runAction env parallel name arguments returns) := by
  intro frame
  unfold runAction
  simp only [bind_apply, get_apply]
  cases resolveArguments frame.world.store frame.context arguments with
  | error e => exact .refl frame
  | ok resolved =>
      simp only [mapError_ok, StepExec.ofExcept, pure_apply]
      have hslots := hactions name.text parallel frame.context resolved frame.world.host
      cases hexecute :
          env.actions.execute name.text parallel frame.context resolved frame.world.host with
      | mk result host =>
          rw [hexecute] at hslots
          have hread : ∀ i, host.store.readSlot i = frame.world.store.readSlot i := by
            intro i
            rw [Store.readSlot, hslots]
            rfl
          have hacted : frame.Evolves ⟨{ frame.world with host }, frame.context⟩ := by
            refine ⟨⟨Nat.le_of_eq (congrArg Array.size hslots).symm, ?_, fun i _ _ => hread i, id,
              id⟩, fun hx => ⟨_, hx, .refl _⟩, ?_⟩
            · intro i hi
              exact (congrArg Option.isSome (hread i)).trans hi
            · intro other y hnone hsome
              cases hnone.symm.trans hsome
          cases result with
          | error e => exact hacted
          | ok answer =>
              exact hacted.trans (bindResults_evolves name returns answer.1 answer.2 _)

theorem runAddBelief_evolves (l : Literal) : Moves Frame.Evolves (runAddBelief l) := by
  intro frame
  unfold runAddBelief
  simp only [bind_apply, get_apply]
  cases frame.context.ground frame.world.store l with
  | error e => exact .refl frame
  | ok ground =>
      simp only [mapError_ok, StepExec.ofExcept, pure_apply]
      cases frame.world.beliefs.add frame.world.store.heap BeliefGraph.root ground
          (some BeliefGraph.blank) with
      | error e => exact .refl frame
      | ok answer =>
          obtain ⟨added, beliefs⟩ := answer
          cases added <;> exact Context.Scope.Evolves.refl _

theorem runRemoveBelief_evolves (l : Literal) : Moves Frame.Evolves (runRemoveBelief l) := by
  intro frame
  unfold runRemoveBelief
  simp only [bind_apply, get_apply]
  cases frame.context.ground frame.world.store l with
  | error e => exact .refl frame
  | ok ground =>
      simp only [mapError_ok, StepExec.ofExcept, pure_apply]
      cases frame.world.beliefs.remove frame.world.store.heap BeliefGraph.root ground with
      | mk removed beliefs => cases removed <;> exact Context.Scope.Evolves.refl _

theorem runAchieve_evolves {calls : Calls} (hcalls : calls.Confined) (l : Literal)
    (immediately : Bool) : Moves Frame.Evolves (runAchieve calls l immediately) := by
  refine .bind .trans (.get .refl) fun frame => ?_
  cases immediately with
  | false =>
      refine .bind .trans (StepExec.onWorld_evolves fun n => ?_) fun _ => .pure .refl _
      exact .ofStore fun _ => rfl
  | true =>
      refine .bind .trans (StepExec.onWorld_evolves (hcalls.dispatch _)) fun outcome => ?_
      cases outcome <;> exact .pure .refl _

theorem runUnify_evolves (env : Environment) (l : Literal) (guard : Option Expression)
    (parallel : Bool) : Moves Frame.Evolves (runUnify env l guard parallel) := by
  intro frame
  unfold runUnify
  simp only [bind_apply, get_apply]
  generalize (guard.map fun e => fun s c => Expression.evaluateFuzzy s c e : Option Guard) = test
  have hunified := env.unifier.unify_evolves frame.world.beliefs BeliefGraph.root l frame.context
    test (parallel || env.parallelUnification) frame.world.store
  cases hunify : env.unifier.unify frame.world.beliefs BeliefGraph.root l frame.context test
      (parallel || env.parallelUnification) frame.world.store with
  | mk result s =>
      rw [hunify] at hunified
      cases result with
      | error e => exact hunified
      | ok found => cases found <;> exact hunified

theorem runAssign_evolves (name : Path) (e : Expression) :
    Moves Frame.Evolves (runAssign name e) := by
  refine .bind .trans (.get .refl) fun frame => ?_
  refine .bind .trans (StepExec.ofExcept_evolves _) fun v => ?_
  exact .bind .trans (StepExec.writing_evolves (Context.bind_evolves name _)) fun _ =>
    .pure .refl _

theorem runCount_evolves (name : Path) (delta : Int64) :
    Moves Frame.Evolves (runCount name delta) := by
  refine .bind .trans (.get .refl) fun frame => ?_
  refine .bind .trans (StepExec.ofExcept_evolves _) fun v => ?_
  exact .bind .trans (StepExec.writing_evolves (Context.bind_evolves name _)) fun _ =>
    .pure .refl _

/-- What a step of any kind makes of its context. -/
theorem run_evolves {env : Environment} (hactions : env.actions.KeepsSlots) {calls : Calls}
    (hcalls : calls.Confined) (parallel : Bool) (step : Step) :
    Moves Frame.Evolves (step.run env calls parallel) := by
  cases step with
  | action name arguments returns =>
      exact runAction_evolves hactions parallel name arguments returns
  | addBelief l => exact runAddBelief_evolves l
  | removeBelief l => exact runRemoveBelief_evolves l
  | achieve l immediately => exact runAchieve_evolves hcalls l immediately
  | unify l guard parallelUnify => exact runUnify_evolves env l guard parallelUnify
  | test condition => exact .bind .trans (.get .refl) fun _ => StepExec.ofExcept_evolves _
  | assign name e => exact runAssign_evolves name e
  | increment name => exact runCount_evolves name 1
  | decrement name => exact runCount_evolves name (-1)
  | rule call => exact hcalls.callRule call

end Step

/-! ## Bodies -/

namespace Body

theorem inTurnFrom_evolves (strategy : Strategy) (least : Confidence) (count : Nat)
    {steps : List (StepExec (Fuzzy Bool))} (h : ∀ step ∈ steps, Moves Frame.Evolves step) :
    Moves Frame.Evolves (Conjunction.inTurnFrom strategy least count steps) := by
  induction steps generalizing least count with
  | nil => exact .pure .refl _
  | cons step rest ih =>
      obtain ⟨hfirst, hrest⟩ := List.forall_mem_cons.1 h
      refine .bind .trans hfirst fun x => ?_
      split
      · exact ih _ _ hrest
      · exact .pure .refl _

variable {env : Environment} {calls : Calls}

theorem runSequence_evolves (hactions : env.actions.KeepsSlots) (hcalls : calls.Confined)
    (steps : List Step) : Moves Frame.Evolves (runSequence env calls steps) := by
  refine inTurnFrom_evolves env.strategy .full 0 fun step hstep => ?_
  obtain ⟨source, -, rfl⟩ := List.mem_map.1 hstep
  exact source.run_evolves hactions hcalls false

/-- The steps of a parallel body write to the slots of the context that they share. -/
theorem runEach_spares (hactions : env.actions.KeepsSlots) (hcalls : calls.Confined) {n : Nat}
    {c : Context} (hc : c.Above n) (steps : List Step) {w : World}
    (hsize : n ≤ w.store.slots.size) :
    w.store.Spares n (runEach env calls c steps w).2.store := by
  induction steps generalizing w with
  | nil => exact .refl hsize
  | cons step rest ih =>
      have hstep := step.run_evolves hactions hcalls true ⟨w, c⟩
      have hspares := hstep.toConfined.spares hsize hc
      rw [runEach_cons]
      exact hspares.trans (ih hspares.size)

theorem runParallel_spares (hactions : env.actions.KeepsSlots) (hcalls : calls.Confined) {n : Nat}
    {c : Context} (hc : c.Above n) (steps : List Step) :
    Exec.Spares n (fun _ => True) (runParallel env calls steps c) := by
  intro w hsize
  have hspares := runEach_spares hactions hcalls hc steps hsize
  refine ⟨?_, fun _ _ => trivial⟩
  unfold runParallel
  rw [bind_apply, lift_apply]
  dsimp only
  cases collect (runEach env calls c steps w).1 <;> exact hspares

end Body

/-! ## Plans -/

namespace Plan

variable {env : Environment} {calls : Calls} {n : Nat}

theorem instantiate_spares (p : Plan) (event : Literal) :
    Exec.Spares n (fun found => ∀ c ∈ found, Context.Above n c) (p.instantiate event) := by
  refine .bind .get fun w _ => ?_
  split
  · exact .pure (by rintro c ⟨⟩)
  · split
    · exact .pure (by rintro c ⟨⟩)
    · refine .bind (Exec.onStore_spares fun s hsize => p.spares_context hsize) fun c hc => ?_
      refine .bind (StepExec.inContext_spares hc ?_) fun answer hanswer => .pure ?_
      · intro frame
        exact (StepExec.writing_evolves (BindingSet.apply_evolves _) frame).toConfined
      · rintro _ ⟨⟩
        exact hanswer

theorem runBody_spares (hactions : env.actions.KeepsSlots) (hcalls : calls.Confined) (p : Plan)
    {c : Context} (hc : c.Above n) : Exec.Spares n (fun _ => True) (p.runBody env calls c) := by
  unfold runBody
  split
  · exact .bind (Body.runParallel_spares hactions hcalls hc p.body) fun _ _ => .pure trivial
  · refine (StepExec.inContext_spares hc fun frame => ?_).weaken
    exact (Body.runSequence_evolves hactions hcalls p.body frame).toConfined

theorem execute_spares (hactions : env.actions.KeepsSlots) (hcalls : calls.Confined) (p : Plan)
    (event : Trigger) {c : Context} (hc : c.Above n) :
    Exec.Spares n (fun _ => True) (p.execute env calls event c) := by
  refine .bind (p.runBody_spares hactions hcalls hc) fun answer _ => ?_
  refine .bind (.ofStore fun _ => rfl) fun _ _ => ?_
  dsimp only
  split
  · refine .bind .get fun w _ => ?_
    exact .bind (.ofStore fun _ => rfl) fun _ _ => .pure trivial
  · exact .pure trivial

end Plan

/-! ## Rules -/

namespace Rule

/-- A head variable is bound, or replaced by one that has no slot. -/
theorem bindHead_confined (name : Path) (t : Term) :
    Moves Context.Scope.Confined (bindHead name t) := by
  intro scope
  have hbind : ∀ u, scope.Confined (Context.bind name u scope).2 :=
    fun u => (Context.bind_evolves name u scope).toConfined
  unfold bindHead
  rw [bind_apply, get_apply]
  cases t with
  | raw v => exact hbind _
  | lit l => exact hbind _
  | var outer =>
      dsimp only
      split
      · exact hbind _
      · refine ⟨Nat.le_refl _, fun _ h => h, fun _ _ _ => rfl, ?_, fun hc => hc.insert _⟩
        rintro i ⟨other, y, hy, hcell⟩
        rw [set_apply, Context.get?_insert] at hy
        split at hy
        · cases hy
          cases hcell
        · exact ⟨other, y, hy, hcell⟩

theorem bindHeads_confined (bindings : List Binding) :
    Moves Context.Scope.Confined (bindHeads bindings) := by
  induction bindings with
  | nil => exact .pure .refl ()
  | cons binding rest ih => exact .bind .trans (bindHead_confined _ _) fun _ => ih

end Rule

theorem Context.propagate_evolves (vars : List Variable) :
    Moves Scope.Evolves (propagate vars) := by
  induction vars with
  | nil => exact .pure .refl 0
  | cons x rest ih =>
      unfold propagate
      split
      · refine .bind .trans (bind_evolves _ _) fun _ => ?_
        exact .bind .trans ih fun _ => .pure .refl _
      · exact ih

/-! ## Calls -/

namespace Execution

variable {env : Environment} {calls : Calls}

theorem dispatchTo_spares (hactions : env.actions.KeepsSlots) (hcalls : calls.Confined)
    (event : Trigger) (plans : List Plan) (n : Nat) :
    Exec.Spares n (fun _ => True) (dispatchTo env calls event plans) := by
  induction plans with
  | nil => exact .pure trivial
  | cons p rest ih =>
      refine .bind (p.instantiate_spares event.literal) fun found hfound => ?_
      cases found with
      | none => exact ih
      | some c =>
          refine .bind (.ofStore fun _ => rfl) fun index _ => ?_
          refine .bind (.ofStore fun w => congrArg World.store (p.checkGuard_world env c w)) ?_
          intro accepted _
          split
          · refine .bind (.ofStore fun _ => rfl) fun _ _ => ?_
            refine .bind (.ofStore fun _ => rfl) fun _ _ => ?_
            refine .bind (p.execute_spares hactions hcalls event (hfound c rfl)) fun outcome _ => ?_
            exact .bind (.ofStore fun _ => rfl) fun _ _ => .pure trivial
          · exact ih

theorem tryRule_spares (hactions : env.actions.KeepsSlots) (hcalls : calls.Confined)
    (call : Literal) (r : Rule) (n : Nat) :
    Exec.Spares n (fun _ => True) (tryRule env calls call r) := by
  refine .bind .get fun w _ => ?_
  split
  · exact .pure trivial
  · split
    · exact .pure trivial
    · refine .bind (Exec.onStore_spares fun s hsize => Context.spares_ofVariables hsize _) ?_
      intro c hc
      refine .bind (StepExec.inContext_spares hc ?_) fun answer hanswer => ?_
      · intro frame
        exact StepExec.writing_moves (Rule.bindHeads_confined _) frame
      · refine .bind (StepExec.inContext_spares hanswer ?_) fun _ _ => .pure trivial
        exact fun frame => (Body.runSequence_evolves hactions hcalls r.body frame).toConfined

theorem tryRules_evolves (hactions : env.actions.KeepsSlots) (hcalls : calls.Confined)
    (call : Literal) (rules : List Rule) :
    Moves Frame.Evolves (tryRules env calls call rules) := by
  induction rules with
  | nil => exact .pure .refl _
  | cons r rest ih =>
      refine .bind .trans
        (StepExec.onWorld_evolves (tryRule_spares hactions hcalls call r)) fun found => ?_
      cases found with
      | none => exact ih
      | some answer =>
          dsimp only
          split
          · have henumerate : ∀ n, Exec.Spares n (fun _ => True) (Exec.enumerate env answer.2) :=
              fun n => .ofStore fun _ => rfl
            refine .bind .trans (StepExec.onWorld_evolves henumerate) fun vars => ?_
            refine .bind .trans (StepExec.writing_evolves (Context.propagate_evolves vars)) ?_
            exact fun _ => .pure .refl _
          · exact ih

theorem callRuleWith_evolves (hactions : env.actions.KeepsSlots) (hcalls : calls.Confined)
    (l : Literal) : Moves Frame.Evolves (callRuleWith env calls l) := by
  refine .bind .trans (.get .refl) fun frame => ?_
  dsimp only
  split
  · exact .throw .refl _
  · exact tryRules_evolves hactions hcalls _ _

/-- The calls open to steps are confined, however deep they may be nested. -/
theorem callsTo_confined (hactions : env.actions.KeepsSlots) (depth : Nat) :
    (callsTo env depth).Confined := by
  induction depth with
  | zero => exact ⟨fun _ _ => .throw Halt.outOfDepth, fun _ => .throw .refl Halt.outOfDepth⟩
  | succ depth ih =>
      refine ⟨fun event n => .bind .get fun w _ => ?_, callRuleWith_evolves hactions ih⟩
      exact dispatchTo_spares hactions ih event _ n

end Execution

/--
A step with built-in actions keeps the shape of its context, whether it ends well
or in an error: a variable of the context is there afterwards with the same kind,
a bound one is bound, and a constant has its value.
-/
theorem Step.run_keeps_shape {env : Environment} (hactions : env.actions.BuiltIn) (depth : Nat)
    (parallel : Bool) (step : Step) (frame : Frame) {name : Path} {x : Variable}
    (hx : frame.context.get? name = some x) :
    let after := (step.run env (Execution.callsTo env depth) parallel frame).2
    ∃ y, after.context.get? name = some y ∧ y.kind = x.kind ∧
      (x.isBound frame.world.store = true → y.isBound after.world.store = true) ∧
      (x.kind = .constant → y.value? after.world.store = x.value? frame.world.store) := by
  intro after
  have hcalls := Execution.callsTo_confined hactions.keepsSlots depth
  have hevolves : frame.Evolves after := step.run_evolves hactions.keepsSlots hcalls parallel frame
  obtain ⟨y, hy, hcell⟩ := hevolves.known hx
  have hslot : ∀ i, (frame.world.store.readSlot i).isSome → (after.world.store.readSlot i).isSome :=
    hevolves.bound
  refine ⟨y, hy, hcell.kind, ?_, ?_⟩
  · unfold Variable.isBound Variable.value?
    generalize x.cell = before at hcell ⊢
    generalize y.cell = later at hcell ⊢
    cases hcell with
    | free h => exact h
    | constant t => exact id
    | mutex i => exact hslot i
    | relocate target h => exact h
  · intro hconstant
    unfold Variable.kind at hconstant
    unfold Variable.value?
    generalize x.cell = before at hcell hconstant ⊢
    generalize y.cell = later at hcell ⊢
    cases hcell with
    | free h => cases hconstant
    | constant t => rfl
    | mutex i => cases hconstant
    | relocate target h => cases hconstant

/-- A rule call that has overwritten one variable of its caller before it fails at a constant. -/
theorem Step.run_keeps_constant_of_refused_output :
    let name (text : String) : Path := ⟨[text]⟩
    let outward (own target : String) : Term := .var ⟨name own, .relocate (name target) none⟩
    let p (t u : Term) : Literal := ⟨⟨.empty, "p"⟩, [t, u], [], false, false⟩
    let call : Literal := ⟨⟨.empty, "r"⟩, [], [], false, false⟩
    let r : Rule := ⟨call, [.unify (p (outward "R" "Z") (outward "S" "C")) none false]⟩
    let env : Environment := { actions := .builtins, rules := [r] }
    let stored := p (.raw (.int 1)) (.raw (.int 2))
    let beliefs := BeliefGraph.rooted.setHeld BeliefGraph.root ⟨false, "p"⟩ [stored]
    let c : Variable := ⟨name "C", .constant (.raw (.int 5))⟩
    let frame : Frame := ⟨{ beliefs }, ⟨[⟨name "Z", .free (some (.raw (.int 0)))⟩, c]⟩⟩
    let ran := run env (Execution.callsTo env 1) false (.rule call) frame
    ran.1 = .error (.failed (.term (.constantRebind "C"))) ∧
      ran.2.context.value? ran.2.world.store (name "Z") = some (.raw (.int 1)) ∧
      ran.2.context.value? ran.2.world.store (name "C") = some (.raw (.int 5)) := by
  intro name outward p call r env stored beliefs c frame ran
  have hresult : ran.1 = .error (.failed (.term (.constantRebind "C"))) := rfl
  have hz : ran.2.context.get? (name "Z") =
      some ⟨name "Z", .free (some (.raw (.int 1)))⟩ := rfl
  have hactions : env.actions.BuiltIn := ActionRegistry.builtIn_builtins
  have hc : frame.context.get? (name "C") = some c := rfl
  have hkeeps := run_keeps_shape hactions 1 false (.rule call) frame hc
  have hran : run env (Execution.callsTo env 1) false (.rule call) frame = ran := rfl
  rw [hran] at hkeeps
  clear_value ran
  obtain ⟨y, hy, -, -, hvalue⟩ := hkeeps
  exact ⟨hresult, Context.value?_of_get? hz _, (Context.value?_of_get? hy _).trans (hvalue rfl)⟩

end Deliberation
