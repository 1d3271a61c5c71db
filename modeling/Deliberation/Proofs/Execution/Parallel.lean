import Deliberation.Proofs.Execution.Frame
import Deliberation.Proofs.Execution.Locality
import Deliberation.Proofs.Matching.Interleaving

/-!
# Parallel bodies with independent steps

A body in turn hands one context from step to step; a parallel body gives each of
its steps a copy of the first one.  A step reads the variables that it has itself.
If no step binds a variable of a later one, each step finds in both contexts the
same, so it ends in the same way and in the same world.  The steps of a parallel
body have then the results of the body in turn, and all of them are accepted.
-/

namespace Deliberation

/-! ## Contexts without mutex variables -/

namespace Context

variable {c d : Context}

theorem slotFree_iff : c.SlotFree ↔ ∀ name, c.slot? name = none := by
  refine slotFree_iff_unshared.trans (forall_congr' fun name => ?_)
  rw [Unshared, Ne, ← isSome_slot?_iff, Option.not_isSome_iff_eq_none]

namespace SlotFree

theorem cell_ne (h : c.SlotFree) {name : Path} {x : Variable} (hx : c.get? name = some x)
    (i : SlotId) : x.cell ≠ .mutex i := by
  intro hcell
  have hslot := slot?_eq_some_iff.2 ⟨x, hx, hcell⟩
  rw [slotFree_iff.1 h name] at hslot
  cases hslot

theorem owns (h : c.SlotFree) (s : Store) : c.Owns s where
  inside hx hcell := absurd hcell (h.cell_ne hx _)
  apart hx _ hcell := absurd hcell (h.cell_ne hx _)

theorem above (h : c.SlotFree) (n : Nat) : c.Above n := by
  rintro i ⟨name, x, hx, hcell⟩
  exact absurd hcell (h.cell_ne hx i)

theorem of_evolves {before after : Scope} (h : before.context.SlotFree)
    (hevolves : before.Evolves after) : after.context.SlotFree :=
  slotFree_iff.2 fun name => (hevolves.slot? name).trans (slotFree_iff.1 h name)

theorem value?_eq (h : c.SlotFree) (s after : Store) (name : Path) :
    c.value? s name = c.value? after name :=
  value?_of_slot?_none (slotFree_iff.1 h name) s after

theorem bindAll_store (h : c.SlotFree) (s : Store) (pairs : List (Path × Term)) :
    (bindAll pairs ⟨s, c⟩).2.store = s := by
  induction pairs generalizing c with
  | nil => rfl
  | cons pair rest ih =>
      rw [bindAll_cons]
      cases hbind : Context.bindIn ⟨s, c⟩ pair.1 pair.2 with
      | error e => rfl
      | ok middle =>
          obtain ⟨hstore, hfree⟩ := h.bindIn hbind
          obtain ⟨after, context⟩ := middle
          cases hstore
          exact ih hfree

/-- Contexts that have the same variables for some names agree on these names. -/
theorem alike (hc : c.SlotFree) (hd : d.SlotFree) {names : Path → Prop}
    (h : ∀ name, names name → d.get? name = c.get? name) (hidden : SlotId → Prop) (s : Store) :
    Scope.Alike hidden names ⟨s, c⟩ ⟨s, d⟩ where
  store := .refl hidden s
  owns := ⟨hc.owns s, hd.owns s⟩
  kind name hname := by
    dsimp only
    rw [kind?, kind?, h name hname]
  value name hname := by
    dsimp only
    rw [value?, value?, h name hname]
  slot name i j _ hi := by
    dsimp only at hi
    rw [slotFree_iff.1 hc name] at hi
    cases hi

end SlotFree

end Context

/-! ## What a step writes -/

namespace Step

/-- The names that a step binds itself: results, targets, the variables of a query or a call. -/
def binds : Step → List Path
  | .action _ _ returns => returns.map Variable.name
  | .unify l _ _ => l.occurrences.map Variable.name
  | .assign name _ => [name]
  | .increment name => [name]
  | .decrement name => [name]
  | .rule call => call.occurrences.map Variable.name
  | _ => []

/-- The names that a step binds, and for a rule call those that the rules for it write to. -/
def writes (env : Environment) (step : Step) : List Path :=
  step.binds ++
    match step with
    | .rule call => (env.rules.filter (·.accepts call)).flatMap Rule.outward
    | _ => []

end Step

/-- An action that is built in takes no notice of the kind of the body. -/
theorem ActionRegistry.BuiltIn.execute_parallel {registry : ActionRegistry}
    (h : registry.BuiltIn) (name : String) (parallel : Bool) (c : Context) (arguments : List Term) :
    registry.execute name parallel c arguments = registry.execute name false c arguments := by
  unfold execute
  cases haction : registry.get? name with
  | none => rfl
  | some action => rcases h name action haction with rfl | rfl <;> rfl

theorem Step.run_parallel {env : Environment} (hactions : env.actions.BuiltIn) (calls : Calls)
    (parallel : Bool) (step : Step) : step.run env calls parallel = step.run env calls false := by
  cases step with
  | action name arguments returns =>
      simp only [run, runAction, hactions.execute_parallel _ parallel]
  | addBelief l => rfl
  | removeBelief l => rfl
  | achieve l immediately => rfl
  | unify l guard parallelUnify => rfl
  | test condition => rfl
  | assign name e => rfl
  | increment name => rfl
  | decrement name => rfl
  | rule call => rfl

/-! ## One step on two contexts -/

namespace StepExec

/-- A step has one result and one world in two contexts, and binds some names of the second one. -/
structure Agrees (names : Path → Prop) (w : World) (c d : Context) (step : StepExec (Fuzzy Bool)) :
    Prop where
  result : (step ⟨w, c⟩).1 = (step ⟨w, d⟩).1
  world : (step ⟨w, c⟩).2.world = (step ⟨w, d⟩).2.world
  kept : ∀ name, ¬ names name → (step ⟨w, d⟩).2.context.get? name = d.get? name

variable {names : Path → Prop} {w : World} {c d : Context}

/-- The names that are bound at the end may stand for different things before. -/
theorem EndsAlike.agrees {step : StepExec (Fuzzy Bool)} (h : EndsAlike names w c d step)
    (hc : c.SlotFree) (hd : d.SlotFree) (hfixes : ∀ name, d.fixes name = c.fixes name) :
    Agrees names w c d step := by
  obtain ⟨e, hwithin, hendc, hendd⟩ := h
  have hfixed : c.fixes = d.fixes := funext fun name => (hfixes name).symm
  refine ⟨?_, ?_, fun name hname => ?_⟩
  · rw [hendc, hendd]
    dsimp only [Finish.settle]
    rw [Context.bindAll_result, Context.bindAll_result]
    dsimp only
    rw [hfixed]
  · rw [hendc, hendd]
    dsimp only [Finish.settle]
    rw [hc.bindAll_store, hd.bindAll_store]
  · rw [hendd]
    exact (hwithin.keeps_others (hd.owns w.store) hname).lookup

end StepExec

namespace Step

open StepExec

variable {env : Environment} {w : World} {c d : Context}

/-- A unification binds variables of the query. -/
theorem runUnify_agrees (env : Environment) (hc : c.SlotFree) (hd : d.SlotFree)
    (hclosed : ∀ name t, c.value? w.store name = some t → t.occurrences = []) {l : Literal}
    {guard : Option Expression} {parallel : Bool}
    (hreads : ∀ x ∈ vars (.unify l guard parallel), d.get? x.name = c.get? x.name) :
    Agrees (· ∈ binds (.unify l guard parallel)) w c d (runUnify env l guard parallel) := by
  have halike : Context.Scope.Alike (fun _ => False)
      (· ∈ (vars (.unify l guard parallel)).map Variable.name) ⟨w.store, c⟩ ⟨w.store, d⟩ := by
    refine hc.alike hd (fun name hname => ?_) _ _
    obtain ⟨x, hx, rfl⟩ := List.mem_map.1 hname
    exact hreads x hx
  have hl : ∀ x ∈ l.occurrences, x.name ∈ (vars (.unify l guard parallel)).map Variable.name :=
    fun x hx => name_mem_vars rfl (List.mem_append_left _ hx)
  have hguard : ∀ e ∈ guard, ∀ name ∈ e.occurrences,
      name ∈ (vars (.unify l guard parallel)).map Variable.name := by
    rintro e ⟨⟩ name hname
    refine name_mem_vars (x := .unbound name) rfl (List.mem_append_right _ ?_)
    exact List.mem_map_of_mem (e.occurrences_subset_vars hname)
  have hhides : w.Hides fun _ => False := ⟨fun _ _ _ _ _ _ h => h, fun _ _ _ _ _ _ _ _ h => h⟩
  have hsealed : Context.Scope.Sealed (fun _ => False)
      (· ∈ (vars (.unify l guard parallel)).map Variable.name) ⟨w.store, c⟩ :=
    ⟨hhides.slots, fun _ _ _ _ _ _ h => h⟩
  have hlocal := runUnify_isLocal env halike hsealed hhides hclosed hl hguard parallel
  have hsame : d.fill w.store l = c.fill w.store l := (halike.fill_eq hl).symm
  have hends := runUnify_apply env l guard parallel w c
  have hends' := runUnify_apply env l guard parallel w d
  dsimp only at hends hends'
  refine ⟨hlocal.result, ?_, fun name hname => ?_⟩
  · have hunshared : ∀ {b : Context}, b.SlotFree → ∀ name, b.Unshared name :=
      Context.slotFree_iff_unshared.1
    rw [hends, hends', Unifier.Race.firstAccepted_eq_firstOutcome fun _ _ _ _ => hunshared hc _,
      Unifier.Race.firstAccepted_eq_firstOutcome fun _ _ _ _ => hunshared hd _]
  · rw [hends']
    refine (Unifier.firstAccepted_keeps_others env.strategy _ (hd.owns w.store) ?_).lookup
    intro b hb hmem
    obtain ⟨pair, hpair, rfl⟩ := List.mem_map.1 hmem
    rw [hsame] at hb
    refine hname (within_candidates hhides (fun x hx => ?_) hb pair hpair).1
    exact List.mem_map_of_mem (Context.mem_fill hclosed hx).1

/-- A call writes what it mentions, and what its rules write outward. -/
theorem callRule_agrees (hactions : env.actions.BuiltIn) (depth : Nat) (hc : c.SlotFree)
    (hd : d.SlotFree) (hfixes : ∀ name, d.fixes name = c.fixes name)
    (hclosed : ∀ name t, c.value? w.store name = some t → t.occurrences = []) {call : Literal}
    (hopen : call.Open w.store.slots.size w.store)
    (hreads : ∀ x ∈ call.occurrences, d.get? x.name = c.get? x.name) :
    Agrees (· ∈ writes env (.rule call)) w c d ((Execution.callsTo env depth).callRule call) := by
  have hsame : d.fill w.store call = c.fill w.store call := by
    refine Literal.substitute_congr fun x hx => ?_
    rw [Context.value?, Context.value?, hreads x hx]
  refine (callRule_endsAlike_of_fill hactions depth hclosed hsame hopen ?_ ?_).agrees hc hd hfixes
  · exact fun x hx => List.mem_append_left _ (List.mem_map_of_mem hx)
  · intro r hr haccepts name hname
    refine List.mem_append_right _ (List.mem_flatMap.2 ⟨r, ?_, hname⟩)
    exact List.mem_filter.2 ⟨hr, haccepts⟩

/-- What a step that neither unifies nor calls a rule binds is written in it. -/
theorem leaves_of_not_mem_binds {step : Step} (hunify : ∀ l guard parallel,
    step ≠ .unify l guard parallel) (hrule : ∀ call, step ≠ .rule call) {name : Path}
    (h : name ∉ step.binds) : step.leaves name = true := by
  cases step with
  | action other arguments returns =>
      refine List.all_eq_true.2 fun x hx => decide_eq_true ?_
      rintro rfl
      exact h (List.mem_map_of_mem hx)
  | addBelief l => rfl
  | removeBelief l => rfl
  | achieve l immediately => rfl
  | unify l guard parallel => exact absurd rfl (hunify l guard parallel)
  | test condition => rfl
  | assign bound e => exact decide_eq_true fun hname => h (List.mem_singleton.2 hname.symm)
  | increment bound => exact decide_eq_true fun hname => h (List.mem_singleton.2 hname.symm)
  | decrement bound => exact decide_eq_true fun hname => h (List.mem_singleton.2 hname.symm)
  | rule call => exact absurd rfl (hrule call)

/--
In two contexts without mutex variables that agree on the variables of a step, the
step ends in the same way and in one world.
-/
theorem run_agrees (hactions : env.actions.BuiltIn) (depth : Nat) (parallel : Bool) {step : Step}
    (hc : c.SlotFree) (hd : d.SlotFree) (hfixes : ∀ name, d.fixes name = c.fixes name)
    (hclosed : ∀ name t, c.value? w.store name = some t → t.occurrences = [])
    (hopen : step.Open w.store.slots.size w.store)
    (hreads : ∀ x ∈ step.vars, d.get? x.name = c.get? x.name) :
    Agrees (· ∈ step.writes env) w c d
      (step.run env (Execution.callsTo env depth) parallel) := by
  have halike : Context.Scope.Alike (fun _ => False) (· ∈ step.vars.map Variable.name)
      ⟨w.store, c⟩ ⟨w.store, d⟩ := by
    refine hc.alike hd (fun name hname => ?_) _ _
    obtain ⟨x, hx, rfl⟩ := List.mem_map.1 hname
    exact hreads x hx
  have hsealed : ∀ names, Context.Scope.Sealed (fun _ => False) names ⟨w.store, c⟩ :=
    fun names => ⟨fun _ _ _ _ _ _ h => h, fun _ _ _ _ _ _ h => h⟩
  have hnames : ∀ {vars : List Variable}, step.vars = Variable.distinct vars →
      ∀ x ∈ vars, x.name ∈ step.vars.map Variable.name :=
    fun hvars _ hx => name_mem_vars hvars hx
  have hexpression : ∀ {vars : List Variable}, step.vars = Variable.distinct vars →
      ∀ {e : Expression}, named e.vars ⊆ vars → ∀ name ∈ e.occurrences,
        name ∈ step.vars.map Variable.name :=
    fun hvars _ he _ hname =>
      name_mem_vars hvars (he (List.mem_map_of_mem (ExpressionOf.occurrences_subset_vars _ hname)))
  -- a step of which it is written what it binds keeps the rest of what it reads
  have hplain : (∀ l guard parallel, step ≠ .unify l guard parallel) →
      (∀ call, step ≠ .rule call) →
      EndsAlike (· ∈ step.vars.map Variable.name) w c d
        (step.run env (Execution.callsTo env depth) parallel) →
      Agrees (· ∈ step.writes env) w c d
        (step.run env (Execution.callsTo env depth) parallel) := by
    intro hunify hrule hends
    have hagrees := hends.agrees hc hd hfixes
    refine ⟨hagrees.result, hagrees.world, fun name hname => ?_⟩
    have hleaves := leaves_of_not_mem_binds hunify hrule fun hbinds =>
      hname (List.mem_append_left _ hbinds)
    exact run_keeps env _ parallel hleaves ⟨w, d⟩
  cases step with
  | action name arguments returns =>
      refine hplain nofun nofun (runAction_endsAlike hactions halike parallel name ?_ ?_)
      · exact fun x hx => hnames rfl x (List.mem_append_left _ hx)
      · exact fun x hx => hnames rfl x (List.mem_append_right _ hx)
  | addBelief l => exact hplain nofun nofun (runAddBelief_endsAlike halike hclosed (hnames rfl))
  | removeBelief l =>
      exact hplain nofun nofun (runRemoveBelief_endsAlike halike hclosed (hnames rfl))
  | achieve l immediately =>
      have hcalls := Execution.callsTo_confined hactions.keepsSlots depth
      exact hplain nofun nofun (runAchieve_endsAlike hcalls halike (hnames rfl) immediately)
  | unify l guard parallelUnify =>
      obtain ⟨hresult, hworld, hkept⟩ := runUnify_agrees env hc hd hclosed hreads
      exact ⟨hresult, hworld, fun name hname =>
        hkept name fun hbinds => hname (List.mem_append_left _ hbinds)⟩
  | test condition =>
      refine hplain nofun nofun (runTest_endsAlike halike (hsealed _) ?_ env _ parallel)
      exact hexpression rfl (List.Subset.refl _)
  | assign name e =>
      refine hplain nofun nofun (runAssign_endsAlike halike (hsealed _) ?_ ?_)
      · exact hnames rfl (.unbound name) List.mem_cons_self
      · exact hexpression rfl (List.subset_cons_self _ _)
  | increment name =>
      exact hplain nofun nofun (runCount_endsAlike halike
        (hnames rfl (.unbound name) List.mem_cons_self) 1)
  | decrement name =>
      exact hplain nofun nofun (runCount_endsAlike halike
        (hnames rfl (.unbound name) List.mem_cons_self) (-1))
  | rule call =>
      refine callRule_agrees hactions depth hc hd hfixes hclosed hopen fun x hx => ?_
      obtain ⟨y, hy, hname⟩ := List.mem_map.1 (hnames rfl x hx)
      exact hname ▸ hreads y hy

theorem Open.spares {n : Nat} {s after : Store} {step : Step} (h : step.Open n s)
    (hspares : s.Spares n after) : step.Open n after := by
  cases step with
  | rule call => exact Literal.Open.spares h hspares
  | _ => trivial

theorem Open.mono {n size : Nat} {s : Store} {step : Step} (h : step.Open n s) (hsize : n ≤ size) :
    step.Open size s := by
  cases step with
  | rule call =>
      exact ⟨h.unbound, fun x hx i hi => Nat.lt_of_lt_of_le (h.below x hx i hi) hsize⟩
  | _ => trivial

end Step

/-! ## Bodies -/

namespace Body

variable {env : Environment}

/-- No step writes a variable of a later one. -/
def Independent (env : Environment) (steps : List Step) : Prop :=
  steps.Pairwise fun earlier later =>
    ∀ name ∈ earlier.writes env, name ∉ later.vars.map Variable.name

/-- The context of a body in turn beside the first one: the steps to come find the same in both. -/
structure Meets (steps : List Step) (c d : Context) : Prop where
  free : d.SlotFree
  fixes : ∀ name, d.fixes name = c.fixes name
  reads : ∀ step ∈ steps, ∀ x ∈ step.vars, d.get? x.name = c.get? x.name

/-- The first step of a body in turn leaves to the others what they read. -/
theorem Meets.step (hactions : env.actions.BuiltIn) (depth : Nat) {step : Step}
    {rest : List Step} {w : World} {c d : Context}
    (hindependent : Independent env (step :: rest)) (h : Meets (step :: rest) c d)
    (hagrees : StepExec.Agrees (· ∈ step.writes env) w c d
      (step.run env (Execution.callsTo env depth) false)) :
    Meets rest c (step.run env (Execution.callsTo env depth) false ⟨w, d⟩).2.context := by
  have hcalls := Execution.callsTo_confined hactions.keepsSlots depth
  have hevolves := step.run_evolves hactions.keepsSlots hcalls false ⟨w, d⟩
  refine ⟨Context.SlotFree.of_evolves h.free hevolves, fun name => ?_, fun later hlater x hx => ?_⟩
  · exact (hevolves.fixes name).trans (h.fixes name)
  · have hunwritten : x.name ∉ step.writes env := fun hname =>
      List.rel_of_pairwise_cons hindependent hlater x.name hname (List.mem_map_of_mem hx)
    exact (hagrees.kept x.name hunwritten).trans
      (h.reads later (List.mem_cons_of_mem _ hlater) x hx)

/-- Steps that all are accepted in turn have the same results on copies of the first context. -/
theorem runEach_of_inTurnFrom (hactions : env.actions.BuiltIn) (depth : Nat) {c : Context}
    (hc : c.SlotFree) (hclosed : ∀ s name t, c.value? s name = some t → t.occurrences = [])
    {n : Nat} {steps : List Step} (hindependent : Independent env steps) {w : World} {d : Context}
    (hsize : n ≤ w.store.slots.size) (hopen : ∀ step ∈ steps, step.Open n w.store)
    (hd : Meets steps c d) {least : Confidence} {count total : Nat} {x : Fuzzy Bool}
    {frame : Frame}
    (hran : Conjunction.inTurnFrom env.strategy least count
      (steps.map (Step.run env (Execution.callsTo env depth) false)) ⟨w, d⟩ =
        (.ok (x, total), frame)) (hx : x.value = true) :
    ∃ answers : List (Fuzzy Bool),
      runEach env (Execution.callsTo env depth) c steps w = (answers.map .ok, frame.world) ∧
      answers.length = steps.length ∧ answers.all env.strategy.accepts = true ∧
      x = ⟨true, answers.foldl (fun least y => least.min y.confidence) least⟩ ∧
      total = count + steps.length := by
  induction steps generalizing w d least count with
  | nil =>
      cases hran
      exact ⟨[], rfl, rfl, rfl, rfl, rfl⟩
  | cons step rest ih =>
      have hcalls := Execution.callsTo_confined hactions.keepsSlots depth
      obtain ⟨hopenStep, hopenRest⟩ := List.forall_mem_cons.1 hopen
      have hagrees := step.run_agrees hactions depth false hc hd.free hd.fixes (hclosed w.store)
        (hopenStep.mono hsize) (hd.reads step List.mem_cons_self)
      have hmeets := hd.step hactions depth hindependent hagrees
      have hspares := (step.run_evolves hactions.keepsSlots hcalls false ⟨w, d⟩).toConfined.spares
        hsize (Context.SlotFree.above hd.free n)
      obtain ⟨hresult, hworld, -⟩ := hagrees
      rw [List.map_cons, Conjunction.inTurnFrom, bind_apply] at hran
      rw [runEach_cons, Step.run_parallel hactions _ true, hresult, hworld]
      cases hstep : step.run env (Execution.callsTo env depth) false ⟨w, d⟩ with
      | mk result after =>
          rw [hstep] at hran hmeets hspares
          cases result with
          | error halt => cases hran
          | ok y =>
              dsimp only at hran
              cases hy : env.strategy.accepts y with
              | false =>
                  rw [hy] at hran
                  cases hran
                  cases hx
              | true =>
                  rw [hy, if_pos rfl] at hran
                  obtain ⟨answers, heach, hlength, hall, hanswer, htotal⟩ :=
                    ih (List.Pairwise.of_cons hindependent) hspares.size
                      (fun later hlater => (hopenRest later hlater).spares hspares) hmeets hran
                  refine ⟨y :: answers, ?_, ?_, ?_, hanswer, ?_⟩
                  · rw [heach]
                    rfl
                  · rw [List.length_cons, List.length_cons, hlength]
                  · rw [List.all_cons, hy, hall]
                    rfl
                  · rw [htotal, List.length_cons]
                    omega

theorem collect_map_ok (answers : List (Fuzzy Bool)) : collect (answers.map .ok) = .ok answers := by
  induction answers with
  | nil => rfl
  | cons y rest ih =>
      rw [List.map_cons, collect, ih]
      rfl

/-- With one order of enumeration, independent steps do in parallel what they do in turn. -/
theorem runParallel_in_order {env : Environment} (hactions : env.actions.BuiltIn) (depth : Nat)
    {steps : List Step} (hindependent : Independent env steps) {w : World} {c : Context}
    (hopen : ∀ step ∈ steps, step.Open w.store.slots.size w.store) (hfree : c.SlotFree)
    (hclosed : ∀ name t, c.value? w.store name = some t → t.occurrences = [])
    {x : Fuzzy Bool} {n : Nat} {frame : Frame}
    (hran : Execution.runSequence env depth steps ⟨w, c⟩ = (.ok (x, n), frame))
    (haccepted : x.value = true) :
    n = steps.length ∧ Execution.runParallel env depth steps c w = (.ok (x, n), frame.world) := by
  have hvalues : ∀ s name t, c.value? s name = some t → t.occurrences = [] := by
    intro s name t ht
    rw [hfree.value?_eq s w.store name] at ht
    exact hclosed name t ht
  obtain ⟨answers, heach, hlength, hall, rfl, htotal⟩ :=
    runEach_of_inTurnFrom hactions depth hfree hvalues hindependent (Nat.le_refl _) hopen
      ⟨hfree, fun _ => rfl, fun _ _ _ _ => rfl⟩ hran haccepted
  rw [Nat.zero_add] at htotal
  refine ⟨htotal, ?_⟩
  rw [Execution.runParallel, runParallel, bind_apply, lift_apply, heach]
  dsimp only
  rw [collect_map_ok]
  dsimp only
  rw [pure_apply, Conjunction.combine, hall, hlength, htotal]

/--
With built-in actions and one worker, independent steps that all run and are
accepted in turn do the same in a parallel body: the result and the number of
steps agree, and so do the worlds that the bodies leave.  Variables are enumerated in
the same orders in both, or in any where the body in turn does not depend on them.
-/
theorem runParallel_of_runSequence {env : Environment} (hactions : env.actions.BuiltIn)
    (_hworker : env.pool.threads = 1) (depth : Nat) {steps : List Step}
    (hindependent : Independent env steps) {w : World} {c : Context}
    (hopen : ∀ step ∈ steps, step.Open w.store.slots.size w.store)
    (hc : ∀ x ∈ c.vars, x.isMutex = false)
    (hclosed : ∀ name t, c.value? w.store name = some t → t.occurrences = [])
    {enumeration : Enumeration}
    (horders : enumeration = env.enumeration ∨
      env.Settled (fun env => Execution.runSequence env depth steps) ⟨w, c⟩)
    {x : Fuzzy Bool} {n : Nat} {frame : Frame}
    (hran : Execution.runSequence env depth steps ⟨w, c⟩ = (.ok (x, n), frame))
    (haccepted : x.value = true) :
    n = steps.length ∧ ∃ after, frame.world.Same after ∧
      Execution.runParallel (env.enumerating enumeration) depth steps c w =
        (.ok (x, n), after) := by
  let other := env.enumerating enumeration
  have hsame : (Execution.runSequence other depth steps ⟨w, c⟩).1 = .ok (x, n) ∧
      frame.world.Same (Execution.runSequence other depth steps ⟨w, c⟩).2.world := by
    rcases horders with rfl | hsettled
    · have hother : Execution.runSequence other depth steps ⟨w, c⟩ = _ := hran
      rw [hother]
      exact ⟨rfl, .refl _⟩
    · obtain ⟨hresult, hframe⟩ := hsettled env.enumeration enumeration
      have hfirst :
          Execution.runSequence (env.enumerating env.enumeration) depth steps ⟨w, c⟩ = _ := hran
      dsimp only at hresult hframe
      rw [hfirst] at hresult hframe
      exact ⟨hresult.symm, hframe.world⟩
  obtain ⟨hresult, hworld⟩ := hsame
  have hbuiltIn : other.actions.BuiltIn := hactions
  obtain ⟨hlength, hparallel⟩ := runParallel_in_order hbuiltIn depth hindependent hopen
    (Context.slotFree_of_forall_mem hc) hclosed (Prod.ext hresult rfl) haccepted
  exact ⟨hlength, _, hworld, hparallel⟩

/--
A call whose rule binds the variable of the call, and a goal with another one.  The
parallel body enumerates in reverse order.
-/
theorem runParallel_of_call_and_goal :
    let name (text : String) : Path := ⟨[text]⟩
    let f (functor text : String) : Literal :=
      ⟨⟨.empty, functor⟩, [.var (.unbound (name text))], [], false, false⟩
    let r : Rule := ⟨f "r" "K", [.assign (name "K") (.constant (.int 7))]⟩
    let env : Environment := { actions := .builtins, rules := [r] }
    let other : Environment := { actions := .builtins, rules := [r], enumeration := .reversed }
    let steps : List Step := [.rule (f "r" "N"), .achieve (f "g" "X") false]
    let c : Context := ⟨[⟨name "X", .free (some (.raw (.int 1)))⟩, .unbound (name "N")]⟩
    let ran := Execution.runSequence env 1 steps ⟨{}, c⟩
    ran.1 = .ok (.truth, 2) ∧
      ran.2.context.get? (name "N") = some ⟨name "N", .free (some (.raw (.int 7)))⟩ ∧
      ∃ after, ran.2.world.Same after ∧
        Execution.runParallel other 1 steps c {} = (.ok (.truth, 2), after) := by
  intro name f r env other steps c ran
  have hindependent : Independent env steps := by
    unfold Independent
    decide
  have hopen : ∀ step ∈ steps, step.Open ({} : World).store.slots.size ({} : World).store := by
    intro step hstep
    rcases List.mem_pair.1 hstep with rfl | rfl
    · refine ⟨fun x hx => ?_, fun x hx i hi => ?_⟩
      · cases List.mem_singleton.1 hx
        rfl
      · cases List.mem_singleton.1 hx
        cases hi
    · trivial
  have hclosed : ∀ other t, c.value? ({} : World).store other = some t → t.occurrences = [] := by
    refine Context.forall_value? fun x hx t ht => ?_
    rcases List.mem_pair.1 hx with rfl | rfl <;> cases ht
    rfl
  have hresult : ran.1 = .ok (.truth, 2) := rfl
  have hget : ran.2.context.get? (name "N") =
      some ⟨name "N", .free (some (.raw (.int 7)))⟩ := rfl
  have hrun : Execution.runSequence env 1 steps ⟨{}, c⟩ = ran := rfl
  have hmutex : ∀ x ∈ c.vars, x.isMutex = false := by decide
  have hworker : env.pool.threads = 1 := rfl
  have hactions : env.actions.BuiltIn := ActionRegistry.builtIn_builtins
  have hlone : ∀ r ∈ env.rules, r.Lone := by
    intro r hr
    cases List.mem_singleton.1 hr
    unfold Rule.Lone
    decide
  have horders : Enumeration.reversed = env.enumeration ∨ env.Settled _ ⟨{}, c⟩ :=
    .inr (Execution.settled_runSequence_of_lone hactions.keepsSlots hlone 1 steps _)
  clear_value ran
  obtain ⟨result, frame⟩ := ran
  dsimp only at hresult hget ⊢
  subst hresult
  refine ⟨rfl, hget, ?_⟩
  exact (runParallel_of_runSequence hactions hworker 1 hindependent hopen hmutex hclosed horders
    hrun rfl).2

/--
A call mentions no variable, and its rule writes outward to one that the next step
reads.  Neither step binds a variable of the other itself; in turn the goal is asked
for with the value that the rule has found, in parallel with the one before.  Another
rule calls one with a variable twice, and asks for a goal with either of the values that
this one finds, as they come.
-/
theorem runParallel_misses_outward_value :
    let name (text : String) : Path := ⟨[text]⟩
    let f (functor : String) (arguments : List Term) : Literal :=
      ⟨⟨.empty, functor⟩, arguments, [], false, false⟩
    let inner : Term := .var ⟨name "R", .relocate (name "Z") none⟩
    let r : Rule := ⟨f "r" [], [.unify (f "p" [inner]) none false]⟩
    let env : Environment := { actions := .builtins, rules := [r] }
    let steps : List Step :=
      [.rule (f "r" []), .achieve (f "g" [.var (.unbound (name "Z"))]) false]
    let beliefs := BeliefGraph.rooted.setHeld BeliefGraph.root ⟨false, "p"⟩
      [f "p" [.raw (.int 1)]]
    let w : World := { beliefs }
    let c : Context := ⟨[⟨name "Z", .free (some (.raw (.int 0)))⟩]⟩
    let ran := Execution.runSequence env 1 steps ⟨w, c⟩
    let copied := Execution.runParallel env 1 steps c w
    let x (text : String) : Term := .var (.unbound (name text))
    let rules : List Rule :=
      [⟨f "s" [x "A", x "B"], [.unify (f "s" [x "A", x "B"]) none false]⟩,
        ⟨f "t" [], [.rule (f "s" [x "Y", x "Y"]), .achieve (f "g" [x "Y"]) false]⟩]
    let facts := BeliefGraph.rooted.setHeld BeliefGraph.root ⟨false, "s"⟩
      [f "s" [.raw (.int 1), .raw (.int 2)]]
    let known : World := { beliefs := facts }
    let ordered (enumeration : Enumeration) : Environment :=
      { actions := .builtins, rules, enumeration }
    let asked (w : World) := w.emitted.map (·.literal.identity)
    let turn (enumeration : Enumeration) :=
      Execution.runSequence (ordered enumeration) 2 [.rule (f "t" [])] ⟨known, .empty⟩
    (env.actions.BuiltIn ∧ env.pool.threads = 1 ∧
      (∀ step ∈ steps, step.Open w.store.slots.size w.store ∧
        ∀ x ∈ step.vars, x.isBound w.store = false) ∧
      (steps.Pairwise fun first second =>
        (∀ other ∈ first.binds, other ∉ second.vars.map Variable.name) ∧
          ∀ other ∈ second.binds, other ∉ first.vars.map Variable.name) ∧
      (∀ x ∈ c.vars, x.isMutex = false) ∧
      ∀ other t, c.value? w.store other = some t → t.occurrences = []) ∧
    ran.1 = .ok (.truth, 2) ∧ copied.1 = .ok (.truth, 2) ∧
    (ran.2.world.emitted = [⟨.addGoal, f "g" [.raw (.int 1)]⟩] ∧
      copied.2.emitted = [⟨.addGoal, f "g" [.raw (.int 0)]⟩]) ∧
    ((turn .inserted).1.toOption.map fun answer => (answer.1.value, answer.2)) = some (true, 1) ∧
    asked (turn .inserted).2.world = [(f "g" [.raw (.int 2)]).identity] ∧
    asked (Execution.runParallel (ordered .reversed) 2 [.rule (f "t" [])] .empty known).2 =
      [(f "g" [.raw (.int 1)]).identity] := by
  intro name f inner r env steps beliefs w c ran copied x rules facts known ordered asked turn
  refine ⟨⟨ActionRegistry.builtIn_builtins, rfl, fun step hstep => ?_, by decide, by decide, ?_⟩,
    by rfl, by rfl, ⟨by rfl, by rfl⟩, by decide +kernel, by decide +kernel, by decide +kernel⟩
  · rcases List.mem_pair.1 hstep with rfl | rfl
    · refine ⟨⟨fun x hx => ?_, fun x hx => ?_⟩, fun x hx => ?_⟩ <;> cases hx
    · refine ⟨trivial, fun x hx => ?_⟩
      cases List.mem_singleton.1 hx
      rfl
  · refine Context.forall_value? fun x hx t ht => ?_
    cases List.mem_singleton.1 hx
    cases ht
    rfl

end Body

end Deliberation
