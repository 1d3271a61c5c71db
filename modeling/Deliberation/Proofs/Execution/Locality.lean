import Deliberation.Proofs.Execution.Enumeration
import Deliberation.Proofs.Execution.Reading
import Deliberation.Proofs.Execution.Settled
import Deliberation.Proofs.Matching.Agreement

/-!
# The names that a step reads and writes

A step reads and writes variables that it has itself, and a rule call also writes
the outer variables of the rules that can answer it.  Run in the same world and in
two contexts that agree on these names, it has the same result and the same
effects, the contexts agree again, and all other names are left alone.  That is so
for two runs with one order of enumeration, and for any two where the order does not
matter.

Every step but a unification is done with its effects before it writes to its
context.  So it ends the same way in both contexts: in one world, with one list of
names to bind and with one result.
-/

namespace Deliberation

theorem ExpressionOf.occurrences_subset_vars {β : Type} (e : ExpressionOf β) :
    e.occurrences ⊆ e.vars := by
  have hfold : ∀ (names found : List Path) (name : Path), name ∈ found ∨ name ∈ names →
      name ∈ names.foldl
        (fun found name => if found.contains name then found else found ++ [name]) found := by
    intro names
    induction names with
    | nil => exact fun found name h => h.resolve_right List.not_mem_nil
    | cons first rest ih =>
        intro found name h
        refine ih _ name ?_
        rcases h with hfound | hname
        · left
          dsimp only
          split
          · exact hfound
          · exact List.mem_append_left _ hfound
        · rcases List.mem_cons.1 hname with rfl | hrest
          · left
            dsimp only
            split
            · next hknown => exact List.contains_iff_mem.1 hknown
            · exact List.mem_append_right _ (List.mem_singleton_self _)
          · exact .inr hrest
  exact fun name hname => hfold e.occurrences [] name (.inr hname)

namespace Step

/-- The names of a step's variables, and for a rule call those that the rules for it write to. -/
def reach (env : Environment) (step : Step) : List Path :=
  step.vars.map Variable.name ++
    match step with
    | .rule call => (env.rules.filter (·.accepts call)).flatMap Rule.outward
    | _ => []

theorem name_mem_vars {step : Step} {vars : List Variable}
    (hvars : step.vars = Variable.distinct vars) {x : Variable} (hx : x ∈ vars) :
    x.name ∈ step.vars.map Variable.name := by
  rw [hvars]
  exact (Variable.mem_names_distinct _ _).2 (List.mem_map_of_mem hx)

theorem mem_reach (env : Environment) {step : Step} {vars : List Variable}
    (hvars : step.vars = Variable.distinct vars) {x : Variable} (hx : x ∈ vars) :
    x.name ∈ step.reach env :=
  List.mem_append_left _ (name_mem_vars hvars hx)

theorem mem_reach_of_expression (env : Environment) {step : Step} {vars : List Variable}
    (hvars : step.vars = Variable.distinct vars) {e : Expression} (he : named e.vars ⊆ vars)
    {name : Path} (hname : name ∈ e.occurrences) : name ∈ step.reach env :=
  mem_reach env hvars (he (List.mem_map_of_mem (e.occurrences_subset_vars hname)))

end Step

/-- Two frames agree on names: their worlds are the same but for hidden slots. -/
structure Frame.Alike (hidden : SlotId → Prop) (names : Path → Prop) (first second : Frame) :
    Prop where
  scope : first.scope.Alike hidden names second.scope
  world : (first.world.withStore second.world.store).Same second.world

/-- No belief leads to a hidden slot, and no slot does that is not hidden. -/
structure World.Hides (hidden : SlotId → Prop) (w : World) : Prop where
  slots : w.store.Sealed hidden
  beliefs : ∀ negated functor, ∀ l ∈ w.beliefs.matching BeliefGraph.root negated functor,
    ∀ t, l.Shows w.store t → t.Avoids hidden

theorem Store.Spares.self (s : Store) : s.Spares s.slots.size s := .refl (Nat.le_refl _)

/-- Contexts agree also after executions that spare their slots. -/
theorem Context.Scope.Alike.spares {hidden : SlotId → Prop} {names : Path → Prop}
    {s after : Store} {c d : Context} (h : Alike hidden names ⟨s, c⟩ ⟨s, d⟩)
    (hspares : s.Spares s.slots.size after) : Alike hidden names ⟨after, c⟩ ⟨after, d⟩ where
  store := .refl hidden after
  owns := ⟨h.owns.1.mono hspares.size, h.owns.2.mono hspares.size⟩
  kind := h.kind
  value name hname := by
    dsimp only
    rw [h.owns.1.value?_of_spares hspares, h.owns.2.value?_of_spares hspares]
    exact h.value name hname
  slot := h.slot

theorem Context.bindAll_singleton (name : Path) (t : Term) : bindAll [(name, t)] = bind name t := by
  funext scope
  rw [bindAll_cons, bind, bind_apply, get_apply]
  dsimp only
  cases bindIn scope name t <;> rfl

namespace StepExec

/-- Two runs do the same in two contexts, and in both they leave all but some names alone. -/
structure Local (hidden : SlotId → Prop) (names : Path → Prop) (w : World) (c d : Context)
    (first second : StepExec (Fuzzy Bool)) : Prop where
  result : (first ⟨w, c⟩).1 = (second ⟨w, d⟩).1
  frame : (first ⟨w, c⟩).2.Alike hidden names (second ⟨w, d⟩).2
  kept : ∀ name, ¬ names name → Frame.Unchanged name ⟨w, c⟩ (first ⟨w, c⟩).2 ∧
    Frame.Unchanged name ⟨w, d⟩ (second ⟨w, d⟩).2

/-! ## Writing at the end -/

/-- The world that a step ends in, the names that it binds then, and its result. -/
structure Finish where
  world : World
  writes : List (Path × Term)
  result : Except (Halt ExecutionError) (Fuzzy Bool)

/-- End in a context. -/
def Finish.settle (e : Finish) (c : Context) :
    Except (Halt ExecutionError) (Fuzzy Bool) × Frame :=
  let written := Context.bindAll e.writes ⟨e.world.store, c⟩
  (match written.1 with
    | .ok () => e.result
    | .error cause => .error (.failed (.term cause)),
    ⟨e.world.withStore written.2.store, written.2.context⟩)

/-- A step writes to no slot that it finds before it ends, and at the end it binds some names. -/
structure Finish.Within (names : Path → Prop) (w : World) (e : Finish) : Prop where
  spares : w.store.Spares w.store.slots.size e.world.store
  writes : ∀ pair ∈ e.writes, names pair.1

/-- A step ends the same way in two contexts. -/
def EndsAlike (names : Path → Prop) (w : World) (c d : Context) (step : StepExec (Fuzzy Bool)) :
    Prop :=
  ∃ e : Finish, e.Within names w ∧ step ⟨w, c⟩ = e.settle c ∧ step ⟨w, d⟩ = e.settle d

variable {hidden : SlotId → Prop} {names : Path → Prop} {w : World} {c d : Context}

/-- Instead of the first run there may be one that comes to the same. -/
theorem Local.of_same {first middle second : StepExec (Fuzzy Bool)}
    (h : Local hidden names w c d middle second) (hresult : (first ⟨w, c⟩).1 = (middle ⟨w, c⟩).1)
    (hframe : (first ⟨w, c⟩).2.Same (middle ⟨w, c⟩).2) :
    Local hidden names w c d first second where
  result := hresult.trans h.result
  frame :=
    ⟨hframe.scope.alike h.frame.scope, (hframe.world.withStore _).trans h.frame.world⟩
  kept name hname := (h.kept name hname).imp_left hframe.scope.unchanged

theorem Finish.Within.keeps_others {e : Finish} (h : e.Within names w) (howns : c.Owns w.store)
    {name : Path} (hname : ¬ names name) :
    Frame.Unchanged name ⟨w, c⟩ (e.settle c).2 := by
  have hmiddle : Context.Scope.Unchanged name ⟨w.store, c⟩ ⟨e.world.store, c⟩ :=
    ⟨rfl, howns.value?_of_spares h.spares name⟩
  have hothers := (Context.bindAll_keeps_others ⟨e.world.store, c⟩ (howns.mono h.spares.size)
    e.writes).2 name
  refine hmiddle.trans (hothers fun hmem => hname ?_)
  obtain ⟨pair, hpair, rfl⟩ := List.mem_map.1 hmem
  exact h.writes pair hpair

theorem EndsAlike.isLocal {step : StepExec (Fuzzy Bool)} (h : EndsAlike names w c d step)
    (halike : Context.Scope.Alike hidden names ⟨w.store, c⟩ ⟨w.store, d⟩) :
    Local hidden names w c d step step := by
  obtain ⟨e, hwithin, hc, hd⟩ := h
  obtain ⟨hwritten, hscope⟩ := (halike.spares hwithin.spares).bindAll hwithin.writes
  refine ⟨?_, ⟨?_, ?_⟩, fun name hname => ⟨?_, ?_⟩⟩
  · rw [hc, hd]
    dsimp only [Finish.settle]
    rw [hwritten]
  · rw [hc, hd]
    exact hscope
  · rw [hc, hd]
    rfl
  · rw [hc]
    exact hwithin.keeps_others halike.owns.1 hname
  · rw [hd]
    exact hwithin.keeps_others halike.owns.2 hname

/-- What a step reads of a context decides how it ends. -/
theorem EndsAlike.of_read {α : Type} {step : StepExec (Fuzzy Bool)} (read : Context → α)
    (hread : read c = read d)
    (h : ∀ a, ∃ e : Finish, e.Within names w ∧ ∀ b, read b = a → step ⟨w, b⟩ = e.settle b) :
    EndsAlike names w c d step := by
  obtain ⟨e, hwithin, hends⟩ := h (read d)
  exact ⟨e, hwithin, hends c hread, hends d rfl⟩

theorem Finish.within_nil {after : World} (h : w.store.Spares w.store.slots.size after.store)
    (result : Except (Halt ExecutionError) (Fuzzy Bool)) :
    Finish.Within names w ⟨after, [], result⟩ :=
  ⟨h, fun _ hpair => absurd hpair List.not_mem_nil⟩

theorem writing_settle (pairs : List (Path × Term)) (answer : Fuzzy Bool) :
    (do writing (Context.bindAll pairs); pure answer : StepExec (Fuzzy Bool)) ⟨w, c⟩ =
      Finish.settle ⟨w, pairs, .ok answer⟩ c := by
  rw [bind_apply, writing_apply]
  unfold Finish.settle
  dsimp only [Frame.scope]
  cases Context.bindAll pairs ⟨w.store, c⟩ with
  | mk written scope => cases written <;> rfl

/-- A name is bound to a value that is the same in both contexts. -/
theorem endsAlike_bind {value : Frame → Except ExecutionError Value} {name : Path}
    (hvalue : value ⟨w, c⟩ = value ⟨w, d⟩) (hname : names name) :
    EndsAlike names w c d (do
      let frame ← get
      let v ← ofExcept (value frame)
      writing (Context.bind name (.raw v))
      pure .truth) := by
  refine .of_read (fun b => value ⟨w, b⟩) hvalue fun found => ?_
  cases found with
  | error e =>
      refine ⟨_, Finish.within_nil (.self w.store) (.error (.failed e)), fun b hb => ?_⟩
      rw [bind_apply, get_apply]
      dsimp only at hb ⊢
      rw [hb]
      rfl
  | ok v =>
      refine ⟨⟨w, [(name, .raw v)], .ok .truth⟩, ⟨.self w.store, ?_⟩, fun b hb => ?_⟩
      · intro pair hpair
        rw [List.mem_singleton.1 hpair]
        exact hname
      · rw [← writing_settle, Context.bindAll_singleton, bind_apply, get_apply]
        dsimp only at hb ⊢
        rw [hb]
        rfl

end StepExec

/-! ## Steps that write at the end -/

/-- Raising a trigger does not reach the store. -/
theorem World.spares_raise (w : World) {n : Nat} {s : Store} (h : s.Spares n w.store)
    (raised : Bool) (t : Trigger) : s.Spares n (if raised then w.emit t else w).store := by
  cases raised <;> exact h

namespace Step

open StepExec

variable {hidden : SlotId → Prop} {names : Path → Prop} {w : World} {c d : Context}

/-- What an action gives back: its results or an error, and the host afterwards. -/
abbrev Answer := Except ExecutionError (Fuzzy Bool × List Term) × Host

/-- The answer of an action to its arguments, if all of them can be resolved. -/
def answer (env : Environment) (parallel : Bool) (name : Path) (arguments : List Term) (w : World)
    (c : Context) : Except TermError Answer :=
  (resolveArguments w.store c arguments).map fun resolved =>
    env.actions.execute name.text parallel c resolved w.host

/-- How a step ends that has called an action. -/
def answered (name : Path) (returns : List Variable) (w : World) : Except TermError Answer → Finish
  | .error e => ⟨w, [], .error (.failed (.term e))⟩
  | .ok (.error e, host) => ⟨{ w with host }, [], .error (.failed e)⟩
  | .ok (.ok (outcome, results), host) =>
      if results.length < returns.length then
        ⟨{ w with host }, [], .error (.failed (.action name.text
          ("returned " ++ toString results.length ++ " values, " ++ toString returns.length ++
            " expected")))⟩
      else ⟨{ w with host }, (returns.map Variable.name).zip results, .ok outcome⟩

theorem runAction_apply (env : Environment) (parallel : Bool) (name : Path) (arguments : List Term)
    (returns : List Variable) (w : World) (c : Context) :
    runAction env parallel name arguments returns ⟨w, c⟩ =
      (answered name returns w (answer env parallel name arguments w c)).settle c := by
  simp only [runAction, answer, bind_apply, get_apply]
  cases resolveArguments w.store c arguments with
  | error e => rfl
  | ok resolved =>
      simp only [mapError_ok, StepExec.ofExcept, pure_apply, Except.map]
      cases env.actions.execute name.text parallel c resolved w.host with
      | mk given host =>
          cases given with
          | error e => rfl
          | ok given =>
              obtain ⟨outcome, results⟩ := given
              simp only [answered, bind_apply, set_apply, pure_apply]
              split
              · rfl
              · exact writing_settle _ outcome

theorem store_of_answer {env : Environment} (hactions : env.actions.BuiltIn) {parallel : Bool}
    {name : Path} {arguments : List Term} {found : Answer}
    (h : answer env parallel name arguments w c = .ok found) : found.2.store = w.store := by
  unfold answer at h
  cases hresolved : resolveArguments w.store c arguments with
  | error e =>
      rw [hresolved] at h
      cases h
  | ok resolved =>
      rw [hresolved] at h
      cases h
      exact hactions.store_execute name.text parallel c resolved w.host

theorem within_answered {returns : List Variable} (hreturns : ∀ x ∈ returns, names x.name)
    {found : Except TermError Answer}
    (hfound : ∀ given, found = .ok given → given.2.store = w.store) (name : Path) :
    (answered name returns w found).Within names w := by
  have hspares : ∀ host : Host, host.store = w.store →
      w.store.Spares w.store.slots.size host.store := by
    intro host hsame
    rw [hsame]
    exact .self w.store
  match found with
  | .error e => exact Finish.within_nil (hspares w.host rfl) _
  | .ok (.error e, host) => exact Finish.within_nil (hspares host (hfound _ rfl)) _
  | .ok (.ok (outcome, results), host) =>
      unfold answered
      dsimp only
      split
      · exact Finish.within_nil (hspares host (hfound _ rfl)) _
      · refine ⟨hspares host (hfound _ rfl), fun pair hpair => ?_⟩
        obtain ⟨x, hx, hname⟩ := List.mem_map.1 (List.of_mem_zip hpair).1
        exact hname ▸ hreturns x hx

theorem runAction_endsAlike {env : Environment} (hactions : env.actions.BuiltIn)
    (h : Context.Scope.Alike hidden names ⟨w.store, c⟩ ⟨w.store, d⟩) (parallel : Bool)
    (name : Path) {arguments : List Term} {returns : List Variable}
    (harguments : ∀ x ∈ Term.occurrencesAll arguments, names x.name)
    (hreturns : ∀ x ∈ returns, names x.name) :
    EndsAlike names w c d (runAction env parallel name arguments returns) := by
  have hsame : answer env parallel name arguments w c = answer env parallel name arguments w d :=
    (resolveArguments_both h harguments).map_eq fun _ _ hsame =>
      hactions.execute_eq hsame name.text parallel c d
  refine ⟨_, within_answered hreturns (fun _ => store_of_answer hactions) name, ?_,
    runAction_apply env parallel name arguments returns w d⟩
  rw [runAction_apply, hsame]

theorem runAddBelief_endsAlike (h : Context.Scope.Alike hidden names ⟨w.store, c⟩ ⟨w.store, d⟩)
    (hclosed : ∀ name t, c.value? w.store name = some t → t.occurrences = []) {l : Literal}
    (hl : ∀ x ∈ l.occurrences, names x.name) : EndsAlike names w c d (runAddBelief l) := by
  refine .of_read (fun b => b.ground w.store l) (h.ground_eq hclosed hl) fun found => ?_
  cases found with
  | error e =>
      refine ⟨_, Finish.within_nil (.self w.store) (.error (.failed (.term e))), fun b hb => ?_⟩
      simp only [runAddBelief, bind_apply, get_apply, hb]
      rfl
  | ok ground =>
      cases hadd : w.beliefs.add w.store.heap BeliefGraph.root ground (some BeliefGraph.blank) with
      | error e =>
          refine ⟨_, Finish.within_nil (.self w.store) (.error (.failed (.belief e))), ?_⟩
          intro b hb
          simp only [runAddBelief, bind_apply, get_apply, hb, mapError_ok, StepExec.ofExcept,
            pure_apply, hadd]
          rfl
      | ok answer =>
          obtain ⟨added, beliefs⟩ := answer
          have hraised := ({ w with beliefs } : World).spares_raise (.self w.store) added
            ⟨.addBelief, ground⟩
          refine ⟨_, Finish.within_nil hraised (.ok .truth), fun b hb => ?_⟩
          simp only [runAddBelief, bind_apply, get_apply, hb, mapError_ok, StepExec.ofExcept,
            pure_apply, hadd]
          rfl

theorem runRemoveBelief_endsAlike
    (h : Context.Scope.Alike hidden names ⟨w.store, c⟩ ⟨w.store, d⟩)
    (hclosed : ∀ name t, c.value? w.store name = some t → t.occurrences = []) {l : Literal}
    (hl : ∀ x ∈ l.occurrences, names x.name) : EndsAlike names w c d (runRemoveBelief l) := by
  refine .of_read (fun b => b.ground w.store l) (h.ground_eq hclosed hl) fun found => ?_
  cases found with
  | error e =>
      refine ⟨_, Finish.within_nil (.self w.store) (.error (.failed (.term e))), fun b hb => ?_⟩
      simp only [runRemoveBelief, bind_apply, get_apply, hb]
      rfl
  | ok ground =>
      cases hremove : w.beliefs.remove w.store.heap BeliefGraph.root ground with
      | mk removed beliefs =>
          have hraised := ({ w with beliefs } : World).spares_raise (.self w.store) removed
            ⟨.deleteBelief, ground⟩
          refine ⟨_, Finish.within_nil hraised (.ok (.certain removed)), fun b hb => ?_⟩
          simp only [runRemoveBelief, bind_apply, get_apply, hb, mapError_ok, StepExec.ofExcept,
            pure_apply, hremove]
          rfl

theorem runAchieve_endsAlike {calls : Calls} (hcalls : calls.Confined)
    (h : Context.Scope.Alike hidden names ⟨w.store, c⟩ ⟨w.store, d⟩) {l : Literal}
    (hl : ∀ x ∈ l.occurrences, names x.name) (immediately : Bool) :
    EndsAlike names w c d (runAchieve calls l immediately) := by
  refine .of_read (fun b => b.fill w.store l) (h.fill_eq hl) fun goal => ?_
  cases immediately with
  | false =>
      have hraised := w.spares_raise (.self w.store) true ⟨.addGoal, goal⟩
      refine ⟨_, Finish.within_nil hraised (.ok .truth), fun b hb => ?_⟩
      cases hb
      rfl
  | true =>
      have hspares := (hcalls.dispatch ⟨.addGoal, goal⟩ _ w (Nat.le_refl _)).1
      cases hdispatch : calls.dispatch ⟨.addGoal, goal⟩ w with
      | mk answer after =>
          rw [hdispatch] at hspares
          refine ⟨_, Finish.within_nil hspares
            (answer.map fun found => found.elim .falsity PlanOutcome.reported), fun b hb => ?_⟩
          simp only [runAchieve, bind_apply, get_apply, hb, if_true, onWorld_apply, hdispatch]
          cases answer with
          | error halt => rfl
          | ok found => cases found <;> rfl

theorem runTest_endsAlike (h : Context.Scope.Alike hidden names ⟨w.store, c⟩ ⟨w.store, d⟩)
    (hsealed : Context.Scope.Sealed hidden names ⟨w.store, c⟩) {condition : Expression}
    (hcondition : ∀ name ∈ condition.occurrences, names name) (env : Environment) (calls : Calls)
    (parallel : Bool) : EndsAlike names w c d (run env calls parallel (.test condition)) := by
  refine .of_read (fun b => Expression.evaluateFuzzy w.store b condition)
    (h.evaluateFuzzy_eq hsealed hcondition) fun found => ?_
  refine ⟨_, Finish.within_nil (.self w.store) (found.mapError .failed), fun b hb => ?_⟩
  simp only [run, bind_apply, get_apply, hb]
  cases found <;> rfl

theorem runAssign_endsAlike (h : Context.Scope.Alike hidden names ⟨w.store, c⟩ ⟨w.store, d⟩)
    (hsealed : Context.Scope.Sealed hidden names ⟨w.store, c⟩) {name : Path} (hname : names name)
    {e : Expression} (he : ∀ name ∈ e.occurrences, names name) :
    EndsAlike names w c d (runAssign name e) :=
  endsAlike_bind (h.evaluate_eq hsealed he) hname

theorem runCount_endsAlike (h : Context.Scope.Alike hidden names ⟨w.store, c⟩ ⟨w.store, d⟩)
    {name : Path} (hname : names name) (delta : Int64) :
    EndsAlike names w c d (runCount name delta) := by
  refine endsAlike_bind ?_ hname
  have hvalue : c.value? w.store name = d.value? w.store name := h.value name hname
  rw [nextNumber, nextNumber, Context.value, Context.value, hvalue]

/-! ## Rule calls -/

theorem accepts_fill (r : Rule) (c : Context) (s : Store) (call : Literal) :
    r.accepts (c.fill s call) = r.accepts call := by
  unfold Rule.accepts Context.fill
  rw [Literal.functor_substitute, Literal.negated_substitute, Literal.arity_substitute]

/-- How a rule call ends: the values of the rule that has answered are still to be written. -/
def called (env : Environment) (w : World) :
    Except (Halt ExecutionError) (Option (Rule × Fuzzy Bool × Context)) → Finish
  | .error halt => ⟨w, [], .error halt⟩
  | .ok none => ⟨w, [], .ok .falsity⟩
  | .ok (some (_, result, own)) =>
      ⟨w.countEnumeration,
        (env.enumeration.order w.enumerations own.vars).filterMap Variable.outward?, .ok result⟩

theorem tryRules_settle (env : Environment) (calls : Calls) (call : Literal) (rules : List Rule) :
    Execution.tryRules env calls call rules ⟨w, c⟩ =
      let (found, after) := Execution.winner env calls call rules w
      (called env after found).settle c := by
  rw [Execution.tryRules_apply]
  cases Execution.winner env calls call rules w with
  | mk found after =>
      match found with
      | .error halt => rfl
      | .ok none => rfl
      | .ok (some (r, result, own)) =>
          dsimp only [called, Finish.settle]
          rw [Context.propagate_apply]
          have hstore : after.countEnumeration.store = after.store := rfl
          rw [hstore]
          cases Context.bindAll ((env.enumeration.order after.enumerations own.vars).filterMap
              Variable.outward?) ⟨after.store, c⟩ with
          | mk written scope => cases written <;> rfl

/-- What a rule call writes are open variables of the call and outer variables of its rules. -/
theorem within_called {env : Environment} (hactions : env.actions.KeepsSlots) {calls : Calls}
    (hcalls : calls.Confined) {call : Literal} (hopen : call.Open w.store.slots.size w.store)
    (hcall : ∀ x ∈ call.occurrences, names x.name) {rules : List Rule}
    (hrules : ∀ r ∈ rules, ∀ name ∈ r.outward, names name) :
    (called env (Execution.winner env calls call rules w).2
      (Execution.winner env calls call rules w).1).Within names w := by
  have hspares := (Execution.winner_spares hactions hcalls call rules _ w (Nat.le_refl _)).1
  cases hwinner : Execution.winner env calls call rules w with
  | mk found after =>
      rw [hwinner] at hspares
      match found with
      | .error halt => exact Finish.within_nil hspares _
      | .ok none => exact Finish.within_nil hspares _
      | .ok (some (r, result, own)) =>
          obtain ⟨hr, -, hdistinct, htargets⟩ :=
            Execution.targets_of_winner hactions hcalls (Nat.le_refl _) hopen hwinner
          refine ⟨hspares, fun pair hpair => ?_⟩
          have hown := ((env.enumeration.perm after.enumerations own.vars).filterMap _).subset hpair
          rcases htargets.of_mem_outward hdistinct hown with hout | hmem
          · exact hrules r hr pair.1 hout
          · obtain ⟨x, hx, hname⟩ := List.mem_map.1 hmem
            exact hname ▸ hcall x hx

/-- What a rule call does is decided by the call that is filled in. -/
theorem callRule_endsAlike_of_fill {env : Environment} (hactions : env.actions.BuiltIn)
    (depth : Nat) (hclosed : ∀ name t, c.value? w.store name = some t → t.occurrences = [])
    {call : Literal} (hsame : d.fill w.store call = c.fill w.store call)
    (hopen : call.Open w.store.slots.size w.store) (hcall : ∀ x ∈ call.occurrences, names x.name)
    (hrules : ∀ r ∈ env.rules, r.accepts call → ∀ name ∈ r.outward, names name) :
    EndsAlike names w c d ((Execution.callsTo env depth).callRule call) := by
  cases depth with
  | zero => exact ⟨_, Finish.within_nil (.self w.store) (.error .outOfDepth), rfl, rfl⟩
  | succ n =>
      have hcalls := Execution.callsTo_confined hactions.keepsSlots n
      have hfilled : ∀ x ∈ (c.fill w.store call).occurrences, x ∈ call.occurrences :=
        fun x hx => (Context.mem_fill hclosed hx).1
      unfold EndsAlike Execution.callsTo
      dsimp only
      rw [Execution.callRuleWith_apply, Execution.callRuleWith_apply]
      dsimp only
      rw [hsame]
      generalize hrulesFor : env.rules.filter (·.accepts (c.fill w.store call)) = rules
      split
      · exact ⟨_, Finish.within_nil (.self w.store) _, rfl, rfl⟩
      · refine ⟨_, within_called hactions.keepsSlots hcalls ?_ ?_ ?_,
          tryRules_settle _ _ _ _, tryRules_settle _ _ _ _⟩
        · exact ⟨fun x hx => hopen.unbound x (hfilled x hx),
            fun x hx => hopen.below x (hfilled x hx)⟩
        · exact fun x hx => hcall x (hfilled x hx)
        · intro r hr
          rw [← hrulesFor, List.mem_filter, accepts_fill] at hr
          exact hrules r hr.1 hr.2

theorem callRule_endsAlike {env : Environment} (hactions : env.actions.BuiltIn) (depth : Nat)
    (h : Context.Scope.Alike hidden names ⟨w.store, c⟩ ⟨w.store, d⟩)
    (hclosed : ∀ name t, c.value? w.store name = some t → t.occurrences = []) {call : Literal}
    (hopen : call.Open w.store.slots.size w.store)
    (hcall : ∀ x ∈ call.occurrences, names x.name)
    (hrules : ∀ r ∈ env.rules, r.accepts call → ∀ name ∈ r.outward, names name) :
    EndsAlike names w c d ((Execution.callsTo env depth).callRule call) :=
  callRule_endsAlike_of_fill hactions depth hclosed (h.fill_eq hcall).symm hopen hcall hrules

/-! ## Unification -/

theorem runUnify_apply (env : Environment) (l : Literal) (guard : Option Expression)
    (parallel : Bool) (w : World) (c : Context) :
    let test : Option Guard := guard.map fun e => fun s c => Expression.evaluateFuzzy s c e
    let tried := Unifier.firstAccepted env.strategy c test
      (Unifier.candidates w.store w.beliefs BeliefGraph.root (c.fill w.store l)
        (c.fill w.store l).vars.length) w.store
    runUnify env l guard parallel ⟨w, c⟩ =
      (((tried.1.map Option.isSome).map Fuzzy.certain).mapError .failed,
        ⟨w.withStore tried.2, Unifier.committed c tried.1⟩) := by
  intro test tried
  simp only [runUnify, bind_apply, get_apply, Unifier.unify_apply]
  have htried : Unifier.firstAccepted env.unifier.strategy c test
      (Unifier.candidates w.store w.beliefs BeliefGraph.root (c.fill w.store l)
        (c.fill w.store l).vars.length) w.store = tried := rfl
  rw [htried]
  match tried with
  | (.error e, after) => rfl
  | (.ok none, after) => rfl
  | (.ok (some accepted), after) => rfl

/-- The candidates for a query bind what is left of its variables to what beliefs show. -/
theorem within_candidates (hhides : w.Hides hidden) {query : Literal}
    (hquery : ∀ x ∈ query.occurrences, names x.name) {required : Nat} {b : BindingSet}
    (hb : b ∈ Unifier.candidates w.store w.beliefs BeliefGraph.root query required) :
    b.Within hidden names := by
  obtain ⟨l, hl, hbind⟩ := Unifier.exists_bind_of_mem_candidates hb
  have hdrawn := Match.drawn_of_bind hbind
  intro pair hpair
  obtain ⟨binding, hbinding, rfl⟩ := List.mem_map.1 hpair
  have hvalue := BindingSet.get?_of_mem hdrawn.nodup hbinding
  obtain ⟨x, hx, hname⟩ := hdrawn.named hvalue
  exact ⟨hname ▸ hquery x hx, hhides.beliefs _ _ l hl _ (hdrawn.shown hvalue)⟩

theorem runUnify_isLocal (env : Environment)
    (h : Context.Scope.Alike hidden names ⟨w.store, c⟩ ⟨w.store, d⟩)
    (hsealed : Context.Scope.Sealed hidden names ⟨w.store, c⟩) (hhides : w.Hides hidden)
    (hclosed : ∀ name t, c.value? w.store name = some t → t.occurrences = []) {l : Literal}
    (hl : ∀ x ∈ l.occurrences, names x.name) {guard : Option Expression}
    (hguard : ∀ e ∈ guard, ∀ name ∈ e.occurrences, names name) (parallel : Bool) :
    Local hidden names w c d (runUnify env l guard parallel)
      (runUnify env l guard parallel) := by
  have hsame : d.fill w.store l = c.fill w.store l := (h.fill_eq hl).symm
  have hc := runUnify_apply env l guard parallel w c
  have hd := runUnify_apply env l guard parallel w d
  rw [hsame] at hd
  have hsets : ∀ b ∈ Unifier.candidates w.store w.beliefs BeliefGraph.root (c.fill w.store l)
      (c.fill w.store l).vars.length, b.Within hidden names :=
    fun b hb => within_candidates hhides
      (fun x hx => hl x (Context.mem_fill hclosed hx).1) hb
  generalize Unifier.candidates w.store w.beliefs BeliefGraph.root (c.fill w.store l)
    (c.fill w.store l).vars.length = sets at hc hd hsets
  have hreads : ∀ test ∈ guard.map fun e => fun s c => Expression.evaluateFuzzy s c e,
      Guard.Reads hidden names test := by
    intro test htest
    obtain ⟨e, he, rfl⟩ := Option.mem_map.1 htest
    exact fun s u c d halike hhides => halike.evaluateFuzzy_eq hhides (hguard e he)
  generalize (guard.map fun e => fun s c => Expression.evaluateFuzzy s c e : Option Guard) = test
    at hc hd hreads
  have htried := Unifier.firstAccepted_alike env.strategy test hreads h hsealed hsets
  have hothers : ∀ name, ¬ names name → ∀ b ∈ sets, name ∉ b.pairs.map Prod.fst := by
    intro name hname b hb hmem
    obtain ⟨pair, hpair, rfl⟩ := List.mem_map.1 hmem
    exact hname (hsets b hb pair hpair).1
  refine ⟨?_, ⟨?_, ?_⟩, fun name hname => ⟨?_, ?_⟩⟩
  · rw [hc, hd, htried.result]
  · rw [hc, hd]
    exact htried.scope
  · rw [hc, hd]
    rfl
  · rw [hc]
    exact Unifier.firstAccepted_keeps_others env.strategy test h.owns.1 (hothers name hname)
  · rw [hd]
    exact Unifier.firstAccepted_keeps_others env.strategy test h.owns.2 (hothers name hname)

/-! ## Every step -/

/-- The variables of a rule call have no values of their own. -/
def Open (n : Nat) (s : Store) : Step → Prop
  | .rule call => call.Open n s
  | _ => True

/-- With one order of enumeration a step depends on the names that it reaches. -/
theorem run_isLocal_in_order {env : Environment} (hactions : env.actions.BuiltIn) (depth : Nat)
    (parallel : Bool) {step : Step} (hopen : step.Open w.store.slots.size w.store)
    (hclosed : ∀ name t, c.value? w.store name = some t → t.occurrences = [])
    (hhides : w.Hides hidden)
    (h : Context.Scope.Alike hidden (· ∈ step.reach env) ⟨w.store, c⟩ ⟨w.store, d⟩) :
    Local hidden (· ∈ step.reach env) w c d
      (step.run env (Execution.callsTo env depth) parallel)
      (step.run env (Execution.callsTo env depth) parallel) := by
  have hsealed : ∀ names, Context.Scope.Sealed hidden names ⟨w.store, c⟩ := fun names =>
    ⟨hhides.slots, fun name t _ ht => Term.avoids_of_ground (hclosed name t ht) hidden⟩
  cases step with
  | action name arguments returns =>
      refine (runAction_endsAlike hactions h parallel name ?_ ?_).isLocal h
      · exact fun x hx => mem_reach env rfl (List.mem_append_left _ hx)
      · exact fun x hx => mem_reach env rfl (List.mem_append_right _ hx)
  | addBelief l =>
      exact (runAddBelief_endsAlike h hclosed fun x hx => mem_reach env rfl hx).isLocal h
  | removeBelief l =>
      exact (runRemoveBelief_endsAlike h hclosed fun x hx => mem_reach env rfl hx).isLocal h
  | achieve l immediately =>
      have hcalls := Execution.callsTo_confined hactions.keepsSlots depth
      exact (runAchieve_endsAlike hcalls h (fun x hx => mem_reach env rfl hx) immediately).isLocal h
  | unify l guard parallelUnify =>
      refine runUnify_isLocal env h (hsealed _) hhides hclosed ?_ ?_ parallelUnify
      · exact fun x hx => mem_reach env rfl (List.mem_append_left _ hx)
      · rintro e ⟨⟩ name hname
        exact mem_reach_of_expression env rfl (List.subset_append_right _ _) hname
  | test condition =>
      refine (runTest_endsAlike h (hsealed _) ?_ env _ parallel).isLocal h
      exact fun name hname => mem_reach_of_expression env rfl (List.Subset.refl _) hname
  | assign name e =>
      refine (runAssign_endsAlike h (hsealed _) ?_ ?_).isLocal h
      · exact mem_reach env (x := .unbound name) rfl List.mem_cons_self
      · exact fun other hother => mem_reach_of_expression env rfl (List.subset_cons_self _ _) hother
  | increment name =>
      exact (runCount_endsAlike h
        (mem_reach env (x := .unbound name) rfl List.mem_cons_self) 1).isLocal h
  | decrement name =>
      exact (runCount_endsAlike h
        (mem_reach env (x := .unbound name) rfl List.mem_cons_self) (-1)).isLocal h
  | rule call =>
      refine (callRule_endsAlike hactions depth h hclosed hopen ?_ ?_).isLocal h
      · exact fun x hx => mem_reach env rfl hx
      · intro r hr haccepts name hname
        refine List.mem_append_right _ (List.mem_flatMap.2 ⟨r, ?_, hname⟩)
        exact List.mem_filter.2 ⟨hr, haccepts⟩

/--
A step depends on the names that it reaches and changes no others.  With built-in
actions, in one world and in two contexts that agree on these names, it has the
same result or error and the same effects, the contexts agree again, and in both
every other name stands for what it stood for.  A mutex variable may have another
slot in each of the contexts where nothing else leads to these slots.  Variables are
enumerated in the same orders in both runs, or in any where the first run does not
depend on them.
-/
theorem run_isLocal {env : Environment} (hactions : env.actions.BuiltIn) (depth : Nat)
    (parallel : Bool) {step : Step} (hopen : step.Open w.store.slots.size w.store)
    (hclosed : ∀ name t, c.value? w.store name = some t → t.occurrences = [])
    (hhides : w.Hides hidden)
    (h : Context.Scope.Alike hidden (· ∈ step.reach env) ⟨w.store, c⟩ ⟨w.store, d⟩)
    (_hworkers : step.WorkersApart env ⟨w, c⟩) {enumeration : Enumeration}
    (horders : enumeration = env.enumeration ∨
      env.Settled (fun env => step.run env (Execution.callsTo env depth) parallel) ⟨w, c⟩) :
    let other := env.enumerating enumeration
    Local hidden (· ∈ step.reach env) w c d
      (step.run env (Execution.callsTo env depth) parallel)
      (step.run other (Execution.callsTo other depth) parallel) := by
  intro other
  have hlocal : Local hidden (· ∈ step.reach env) w c d
      (step.run other (Execution.callsTo other depth) parallel)
      (step.run other (Execution.callsTo other depth) parallel) := by
    have hbuiltIn : other.actions.BuiltIn := hactions
    exact run_isLocal_in_order hbuiltIn depth parallel hopen hclosed hhides h
  rcases horders with rfl | hsettled
  · exact hlocal
  · obtain ⟨hresult, hframe⟩ := hsettled env.enumeration enumeration
    exact hlocal.of_same hresult hframe

/--
A mutex variable has another slot in each of two contexts, and one of them has a
variable that the step does not mention; the second run enumerates in reverse order.
-/
theorem run_isLocal_of_own_slots :
    let name (text : String) : Path := ⟨[text]⟩
    let f (t u : Term) : Literal := ⟨⟨.empty, "f"⟩, [t, u], [], false, false⟩
    let query := f (.var (.unbound (name "M"))) (.var (.unbound (name "Y")))
    let step : Step := .unify query (some (.var (name "Y"))) false
    let stored := f (.raw (.int 7)) (.raw (.bool true))
    let beliefs := BeliefGraph.rooted.setHeld BeliefGraph.root ⟨false, "f"⟩ [stored]
    let w : World := { host := { store := { slots := #[none, none] } }, beliefs }
    let z : Variable := ⟨name "Z", .free (some (.raw (.int 5)))⟩
    let context (i : SlotId) (rest : List Variable) : Context :=
      ⟨⟨name "M", .mutex i⟩ :: .unbound (name "Y") :: rest⟩
    let ran (enumeration : Enumeration) (c : Context) :=
      let env : Environment := { actions := .builtins, enumeration }
      step.run env (Execution.callsTo env 0) false ⟨w, c⟩
    let first := ran .inserted (context 0 [z])
    let second := ran .reversed (context 1 [])
    second.1 = .ok .truth ∧
      second.2.context.value? second.2.world.store (name "M") = some (.raw (.int 7)) ∧
      first.2.context.get? (name "Z") = some z ∧ second.2.context.get? (name "Z") = none := by
  intro name f query step stored beliefs w z context ran first second
  have hresult : first.1 = .ok .truth := rfl
  have hslot : first.2.context.slot? (name "M") = some 0 := rfl
  have hread : first.2.world.store.readSlot 0 = some (.raw (.int 7)) := rfl
  have hvalue := (Context.value?_of_slot? hslot _).trans hread
  have hclosed : ∀ other t, (context 0 [z]).value? w.store other = some t → t.occurrences = [] := by
    refine Context.forall_value? fun x hx t ht => ?_
    simp only [context, List.mem_cons, List.not_mem_nil, or_false] at hx
    rcases hx with rfl | rfl | rfl <;> cases ht
    rfl
  have howns : ∀ i < 2, ∀ rest ⊆ [z], (context i rest).Owns w.store := by
    intro i hi rest hrest
    have hslot : ∀ {other x j}, (context i rest).get? other = some x → x.cell = .mutex j →
        other = name "M" ∧ j = i := by
      intro other x j hx hcell
      rw [← Context.name_of_get? hx]
      rcases List.mem_cons.1 (List.mem_of_find?_eq_some hx) with rfl | hmem
      · cases hcell
        exact ⟨rfl, rfl⟩
      · rcases List.mem_cons.1 hmem with rfl | hmem
        · cases hcell
        · cases List.mem_singleton.1 (hrest hmem)
          cases hcell
    refine ⟨fun hx hcell => ?_, fun hx hy hcell hcell' => ?_⟩
    · rw [(hslot hx hcell).2]
      exact hi
    · rw [(hslot hx hcell).1, (hslot hy hcell').1]
  have hhides : w.Hides fun _ => True := by
    refine ⟨fun i t hi => absurd trivial hi, fun negated functor l hl t ht => ?_⟩
    refine Term.avoids_of_ground (ht.ground ?_) _
    unfold BeliefGraph.matching at hl
    split at hl
    · cases hl
    · obtain ⟨m, hm, rfl⟩ := List.mem_map.1 hl
      rw [BeliefGraph.held_setHeld _ (by decide)] at hm
      split at hm
      · cases List.mem_singleton.1 hm
        rfl
      · rw [BeliefGraph.rooted, BeliefGraph.held_create,
          BeliefGraph.held_of_size_le _ (Nat.zero_le _)] at hm
        cases hm
  let env : Environment := { actions := .builtins }
  have hagree : Context.Scope.Alike (fun _ => True) (· ∈ step.reach env)
      ⟨w.store, context 0 [z]⟩ ⟨w.store, context 1 []⟩ := by
    refine ⟨.refl _ _, ⟨howns 0 (by decide) _ (List.Subset.refl _),
      howns 1 (by decide) _ (List.nil_subset _)⟩, fun other hother => ?_, fun other hother => ?_,
      fun _ _ _ _ _ _ => .inr ⟨trivial, trivial⟩⟩
    · rcases List.mem_pair.1 hother with rfl | rfl <;> rfl
    · rcases List.mem_pair.1 hother with rfl | rfl <;> rfl
  have hopen : step.Open w.store.slots.size w.store := trivial
  have hworkers : step.WorkersApart env ⟨w, context 0 [z]⟩ := by
    refine ⟨env.workersApart_of_one_worker rfl _, ?_⟩
    intro l guard parallel hstep
    obtain ⟨-, -, rfl⟩ := StepOf.unify.inj hstep
    exact nofun
  have horders : Enumeration.reversed = env.enumeration ∨ env.Settled _ ⟨w, context 0 [z]⟩ :=
    .inr (Execution.settled_run_of_lone ActionRegistry.builtIn_builtins.keepsSlots
      (fun _ h => absurd h List.not_mem_nil) 0 false step _)
  have hactions : env.actions.BuiltIn := ActionRegistry.builtIn_builtins
  obtain ⟨hsame, halike, hkept⟩ :=
    run_isLocal hactions 0 false hopen hclosed hhides hagree hworkers horders
  obtain ⟨hkeptFirst, hkeptSecond⟩ := hkept (name "Z") (by decide)
  let other := env.enumerating .reversed
  have hfirst : step.run env (Execution.callsTo env 0) false ⟨w, context 0 [z]⟩ = first := rfl
  have hsecond : step.run other (Execution.callsTo other 0) false ⟨w, context 1 []⟩ = second := rfl
  rw [hfirst] at hsame halike hkeptFirst
  rw [hsecond] at hsame halike hkeptSecond
  clear_value first second
  refine ⟨hsame.symm.trans hresult, ?_, hkeptFirst.lookup, hkeptSecond.lookup⟩
  exact (halike.scope.value (name "M") List.mem_cons_self).symm.trans hvalue

/--
A rule call changes a variable that it does not mention.  Two contexts agree in
all their variables, and in the slot of one of them, which a belief leads to, they
do not; a guard that reads it accepts in one of them and fails in the other.  In one
context a call with one variable twice gives it either value of the rule, as they
come, and two workers leave either fact in the slots, or one half of each.
-/
theorem run_writes_outward_and_reads_slots :
    let name (text : String) : Path := ⟨[text]⟩
    let p (t : Term) : Literal := ⟨⟨.empty, "p"⟩, [t], [], false, false⟩
    let call : Literal := ⟨⟨.empty, "r"⟩, [], [], false, false⟩
    let r : Rule := ⟨call, [.unify (p (.var ⟨name "R", .relocate (name "Z") none⟩)) none false]⟩
    let known := BeliefGraph.rooted.setHeld BeliefGraph.root ⟨false, "p"⟩ [p (.raw (.int 1))]
    let calling : Environment := { actions := .builtins, rules := [r] }
    let frame : Frame := ⟨{ beliefs := known }, ⟨[⟨name "Z", .free (some (.raw (.int 0)))⟩]⟩⟩
    let called := run calling (Execution.callsTo calling 1) false (.rule call) frame
    let f (t u : Term) : Literal := ⟨⟨.empty, "f"⟩, [t, u], [], false, false⟩
    let query := f (.var (.unbound (name "M"))) (.var (.unbound (name "Y")))
    let step : Step := .unify query (some (.var (name "Y"))) false
    let stored := f (.raw (.bool true)) (.var ⟨name "M", .mutex 0⟩)
    let beliefs := BeliefGraph.rooted.setHeld BeliefGraph.root ⟨false, "f"⟩ [stored]
    let w : World := { host := { store := { slots := #[none, none] } }, beliefs }
    let context (i : SlotId) : Context := ⟨[⟨name "M", .mutex i⟩, .unbound (name "Y")]⟩
    let env : Environment := { actions := .builtins }
    let ran (i : SlotId) := step.run env (Execution.callsTo env 0) false ⟨w, context i⟩
    let y := name "Y"
    let twice (enumeration : Enumeration) :=
      let env : Environment := { actions := .builtins, rules := [Execution.numbering], enumeration }
      let step : Step := .rule (Execution.numberingCall "Y" "Y")
      let after := step.run env (Execution.callsTo env 1) false ⟨{}, ⟨[.unbound y]⟩⟩
      after.2.context.value? after.2.world.store y
    let m : Variable := ⟨name "M", .mutex 0⟩
    let n : Variable := ⟨name "N", .mutex 1⟩
    let facts := BeliefGraph.rooted.setHeld BeliefGraph.root ⟨false, "f"⟩
      [f (.raw (.int 1)) (.raw (.int 1)), f (.raw (.int 2)) (.raw (.int 2))]
    let left (i j : Int64) : Store := { slots := #[some (.raw (.int i)), some (.raw (.int j))] }
    let ends (after : Store) := Unifier.Ends ⟨.crisp, some (.ofThreads 2)⟩ facts BeliefGraph.root
      (f (.var m) (.var n)) ⟨[m, n]⟩ none true w.store (.ok (some ⟨[m, n]⟩), after)
    (vars (.rule call) = [] ∧
      frame.context.value? frame.world.store (name "Z") = some (.raw (.int 0)) ∧
      called.2.context.value? called.2.world.store (name "Z") = some (.raw (.int 1))) ∧
    (∀ x ∈ step.vars, (context 0).kind? x.name = (context 1).kind? x.name ∧
      (context 0).value? w.store x.name = (context 1).value? w.store x.name) ∧
    ((ran 0).1 = .ok .truth ∧ (ran 1).1 = .error (.failed (.term (.unboundVariable "M")))) ∧
    (twice .inserted = some (.raw (.int 2)) ∧ twice .reversed = some (.raw (.int 1))) ∧
    ends (left 1 1) ∧ ends (left 2 1) := by
  intro name p call r known calling frame called f query step stored beliefs w context env ran y
    twice m n facts left ends
  have htwice : ∀ enumeration t,
      Context.propagate (enumeration.order 0 (Execution.numbered "Y" "Y").vars)
        ⟨{}, ⟨[.unbound y]⟩⟩ = (.ok 2, ⟨{}, ⟨[⟨y, .free (some t)⟩]⟩⟩) →
      twice enumeration = some t := by
    intro enumeration t hwritten
    let env : Environment := { actions := .builtins, rules := [Execution.numbering], enumeration }
    have hwinner : Execution.winner env (Execution.callsTo env 0) (Execution.numberingCall "Y" "Y")
        [Execution.numbering] {} =
          (.ok (some (Execution.numbering, .truth, Execution.numbered "Y" "Y")), {}) := rfl
    have hcalled : Execution.callRuleWith env _ (Execution.numberingCall "Y" "Y")
        ⟨{}, ⟨[.unbound y]⟩⟩ = _ := Execution.callRuleWith_answered hwinner hwritten
    exact congrArg (fun after : _ × Frame => after.2.context.value? after.2.world.store y) hcalled
  have hrace : ∀ order, Unifier.race ⟨.crisp, some (.ofThreads 2)⟩ order facts BeliefGraph.root
      (f (.var m) (.var n)) ⟨[m, n]⟩ none w.store =
        (Unifier.Race.start w.store ⟨[m, n]⟩ ([1, 2].map fun i =>
          ⟨[⟨m.name, .raw (.int i), [0]⟩, ⟨n.name, .raw (.int i), [1]⟩]⟩)).run .crisp none order :=
    fun _ => rfl
  refine ⟨⟨rfl, rfl, rfl⟩, fun x hx => ?_, ⟨rfl, rfl⟩, ⟨htwice _ _ rfl, htwice _ _ rfl⟩, ?_, ?_⟩
  · rcases List.mem_pair.1 hx with rfl | rfl <;> exact ⟨rfl, rfl⟩
  · exact .of_first [0, 0, 0] rfl (hrace _)
  · -- the worker for the second fact writes both slots while that for the first is halfway
    exact .of_first [0, 1, 1, 0, 0] rfl (hrace _)

end Step

end Deliberation
