import Deliberation.Proofs.Execution.Relocation
import Deliberation.Proofs.Matching.Unification

/-!
# The outputs of a rule call

A rule call tries rules until the body of one succeeds, each in a context of its
own.  The values of the relocating variables of that one are then written to the
variables of the caller that they stand for, and nothing else of the caller's
context changes.
-/

namespace Deliberation

/-! ## The rule that answers -/

/-- The variables of a literal are unbound, and their slots lie below a bound. -/
structure Literal.Open (n : Nat) (s : Store) (l : Literal) : Prop where
  unbound : ∀ x ∈ l.occurrences, x.isBound s = false
  below : ∀ x ∈ l.occurrences, ∀ i, x.cell = .mutex i → i < n

/-- A variable without a slot above a bound keeps its value while the slots below it are spared. -/
theorem Variable.value?_of_spares {n : Nat} {s after : Store} (h : s.Spares n after)
    {x : Variable} (hx : ∀ i, x.cell = .mutex i → i < n) : x.value? after = x.value? s := by
  unfold value?
  cases hcell : x.cell with
  | free value => rfl
  | constant value => rfl
  | mutex i => exact h.same i (hx i hcell)
  | relocate target value => rfl

theorem Literal.Open.spares {n : Nat} {s after : Store} {l : Literal} (h : l.Open n s)
    (hspares : s.Spares n after) : l.Open n after where
  unbound x hx := by
    rw [Variable.isBound, Variable.value?_of_spares hspares (h.below x hx)]
    exact h.unbound x hx
  below := h.below

theorem BindingSet.get?_of_mem {b : BindingSet} (hnodup : b.names.Nodup) {binding : Binding}
    (h : binding ∈ b.bindings) : b.get? binding.name = some binding.value := by
  obtain ⟨t, ht⟩ := Option.isSome_iff_exists.1
    ((b.get?_isSome_iff binding.name).2 (List.mem_map_of_mem h))
  obtain ⟨other, hother, hname, rfl⟩ := exists_of_get? ht
  rw [ht, List.inj_on_of_nodup_map hnodup hother h hname]

namespace Execution

variable {env : Environment} {calls : Calls}

/-- A rule is tried by binding its head to the call and running its body in turn. -/
theorem match_of_tryRule {call : Literal} {r : Rule} {w after : World} {result : Fuzzy Bool}
    {own : Context} (h : tryRule env calls call r w = (.ok (some (result, own)), after)) :
    ∃ b scope count, Match.bind w.store r.head call = some b ∧
      Rule.bindHeads b.bindings ⟨(r.context w.store).2, (r.context w.store).1⟩ = (.ok (), scope) ∧
      Body.runSequence env calls r.body ⟨w.withStore scope.store, scope.context⟩ =
        (.ok (result, count), ⟨after, own⟩) := by
  unfold tryRule at h
  rw [bind_apply, get_apply] at h
  dsimp only at h
  cases hbind : Match.bind w.store r.head call with
  | none =>
      rw [hbind] at h
      cases h
  | some b =>
      rw [hbind] at h
      dsimp only at h
      by_cases hsize : b.size = r.head.vars.length
      · rw [if_neg (not_not_intro hsize)] at h
        simp only [bind_apply, Exec.onStore_apply, StepExec.inContext_writing,
          World.store_withStore] at h
        cases hheads : Rule.bindHeads b.bindings
            ⟨(r.context w.store).2, (r.context w.store).1⟩ with
        | mk written scope =>
            rw [hheads] at h
            cases written with
            | error e => cases h
            | ok value =>
                dsimp only at h
                rw [StepExec.inContext_apply] at h
                cases hbody : Body.runSequence env calls r.body
                    ⟨(w.withStore (r.context w.store).2).withStore scope.store, scope.context⟩ with
                | mk ended frame =>
                    rw [hbody] at h
                    cases ended with
                    | error halt => cases h
                    | ok counted =>
                        obtain ⟨answer, count⟩ := counted
                        cases h
                        exact ⟨b, scope, count, rfl, hheads, hbody⟩
      · rw [if_pos hsize] at h
        cases h

/-- The variables of a rule's context have different names, and the body keeps their kinds. -/
theorem evolves_of_tryRule (hactions : env.actions.KeepsSlots) (hcalls : calls.Confined)
    {r : Rule} {bindings : List Binding} {w : World} {heads : Context.Scope} {ran : Frame}
    {answer : Except (Halt ExecutionError) (Fuzzy Bool × Nat)}
    (hheads : Rule.bindHeads bindings ⟨(r.context w.store).2, (r.context w.store).1⟩ =
      (.ok (), heads))
    (hbody : Body.runSequence env calls r.body ⟨w.withStore heads.store, heads.context⟩ =
      (answer, ran)) :
    ran.context.Distinct ∧ heads.Evolves ran.scope := by
  have hconfined := Rule.bindHeads_confined bindings
    ⟨(r.context w.store).2, (r.context w.store).1⟩
  have hevolves := Body.runSequence_evolves hactions hcalls r.body
    ⟨w.withStore heads.store, heads.context⟩
  rw [hheads] at hconfined
  rw [hbody] at hevolves
  exact ⟨hevolves.distinct (hconfined.distinct (Context.distinct_ofVariables _ _)), hevolves⟩

/-- What holds for the links of a rule's own variables, and for those of its head to variables in
the call, holds for all the links of the context of its body. -/
theorem links_of_tryRule (hactions : env.actions.KeepsSlots) (hcalls : calls.Confined)
    {P : Path → Path → Prop} {call : Literal} {r : Rule} {w after : World} {result : Fuzzy Bool}
    {own : Context} (hown : (r.context w.store).1.Links P)
    (hhead : ∀ b, Match.bind w.store r.head call = some b → ∀ binding ∈ b.bindings,
      ∀ outer, binding.value = .var outer → P binding.name outer.name)
    (h : tryRule env calls call r w = (.ok (some (result, own)), after)) :
    own.Distinct ∧ own.Links P := by
  obtain ⟨b, scope, count, hbind, hheads, hbody⟩ := match_of_tryRule h
  have hlinks : (Rule.bindHeads b.bindings
      ⟨(r.context w.store).2, (r.context w.store).1⟩).2.context.Links P :=
    Rule.links_of_bindHeads hown (hhead b hbind)
  rw [hheads] at hlinks
  obtain ⟨hdistinct, hevolves⟩ := evolves_of_tryRule hactions hcalls hheads hbody
  exact ⟨hdistinct, hevolves.links hlinks⟩

/-- A relocating variable of a rule's context stands for an open variable of the call, or the rule
has it itself. -/
theorem targets_of_tryRule (hactions : env.actions.KeepsSlots) (hcalls : calls.Confined)
    {call : Literal} {r : Rule} {w after : World} {result : Fuzzy Bool} {own : Context}
    (hcall : ∀ x ∈ call.occurrences, x.isBound w.store = false)
    (h : tryRule env calls call r w = (.ok (some (result, own)), after)) :
    own.Distinct ∧ own.Targets (r.Reaches call) := by
  refine links_of_tryRule hactions hcalls (fun name target htarget => ?_) ?_ h
  · obtain ⟨x, hx, -, hown⟩ := r.links_context w.store name target htarget
    exact .inl (List.mem_filterMap.2 ⟨x, hx, hown⟩)
  · intro b hbind binding hbinding outer houter
    have hdrawn := Match.drawn_of_bind hbind
    have hshown := hdrawn.shown (BindingSet.get?_of_mem hdrawn.nodup hbinding)
    rw [houter] at hshown
    exact .inr (List.mem_map_of_mem (hshown.subset hcall List.mem_cons_self))

/--
The first rule whose body succeeds, with its result and the context of its body.
-/
def winner (env : Environment) (calls : Calls) (call : Literal) :
    List Rule → Exec (Option (Rule × Fuzzy Bool × Context))
  | [] => pure none
  | r :: rest => do
      match ← tryRule env calls call r with
      | none => winner env calls call rest
      | some (result, own) =>
          if env.strategy.accepts result then pure (some (r, result, own))
          else winner env calls call rest

/-- Trying rules is finding the one that answers and writing its values outward. -/
theorem tryRules_apply (env : Environment) (calls : Calls) (call : Literal) (rules : List Rule)
    (frame : Frame) :
    tryRules env calls call rules frame =
      match winner env calls call rules frame.world with
      | (.error halt, w) => (.error halt, { frame with world := w })
      | (.ok none, w) => (.ok .falsity, { frame with world := w })
      | (.ok (some (_, result, own)), w) =>
          let vars := env.enumeration.order w.enumerations own.vars
          match Context.propagate vars ⟨w.store, frame.context⟩ with
          | (.ok _, scope) =>
              (.ok result, ⟨w.countEnumeration.withStore scope.store, scope.context⟩)
          | (.error e, scope) =>
              (.error (.failed (.term e)),
                ⟨w.countEnumeration.withStore scope.store, scope.context⟩) := by
  induction rules generalizing frame with
  | nil => rfl
  | cons r rest ih =>
      rw [tryRules, winner, bind_apply, bind_apply, StepExec.onWorld_apply]
      cases tryRule env calls call r frame.world with
      | mk tried w =>
          cases tried with
          | error halt => rfl
          | ok found =>
              cases found with
              | none => exact ih ⟨w, frame.context⟩
              | some answer =>
                  obtain ⟨result, own⟩ := answer
                  dsimp only
                  by_cases haccepts : env.strategy.accepts result
                  · have hscope : Frame.scope ⟨w.countEnumeration, frame.context⟩ =
                        ⟨w.store, frame.context⟩ := rfl
                    rw [if_pos haccepts, if_pos haccepts, bind_apply, StepExec.onWorld_apply,
                      Exec.enumerate_apply]
                    dsimp only [pure_apply]
                    rw [bind_apply, StepExec.writing_apply, hscope]
                    cases Context.propagate (env.enumeration.order w.enumerations own.vars)
                        ⟨w.store, frame.context⟩ with
                    | mk written scope => cases written <;> rfl
                  · rw [if_neg haccepts, if_neg haccepts]
                    exact ih ⟨w, frame.context⟩

/-- Finding a rule writes to no slot that was there before. -/
theorem winner_spares (hactions : env.actions.KeepsSlots) (hcalls : calls.Confined)
    (call : Literal) (rules : List Rule) (n : Nat) :
    Exec.Spares n (fun _ => True) (winner env calls call rules) := by
  induction rules with
  | nil => exact .pure trivial
  | cons r rest ih =>
      refine .bind (tryRule_spares hactions hcalls call r n) fun found _ => ?_
      cases found with
      | none => exact ih
      | some answer =>
          dsimp only
          split
          · exact .pure trivial
          · exact ih

/-- The rule that answers is one of the rules, tried in a world with the slots as they were. -/
theorem tried_of_winner (hactions : env.actions.KeepsSlots) (hcalls : calls.Confined) {n : Nat}
    {call : Literal} {rules : List Rule} {w after : World} {r : Rule} {result : Fuzzy Bool}
    {own : Context} (hsize : n ≤ w.store.slots.size)
    (h : winner env calls call rules w = (.ok (some (r, result, own)), after)) :
    r ∈ rules ∧ env.strategy.accepts result = true ∧ ∃ before : World,
      w.store.Spares n before.store ∧
        tryRule env calls call r before = (.ok (some (result, own)), after) := by
  induction rules generalizing w with
  | nil => cases h
  | cons first rest ih =>
      have hspares := (tryRule_spares hactions hcalls call first n w hsize).1
      rw [winner, bind_apply] at h
      cases htry : tryRule env calls call first w with
      | mk tried middle =>
          rw [htry] at h hspares
          have hlater := fun h => (ih hspares.size h).imp (List.mem_cons_of_mem first)
            (And.imp_right (Exists.imp fun _ => And.imp_left hspares.trans))
          cases tried with
          | error halt => cases h
          | ok found =>
              cases found with
              | none => exact hlater h
              | some answer =>
                  obtain ⟨got, context⟩ := answer
                  dsimp only at h
                  by_cases haccepts : env.strategy.accepts got
                  · rw [if_pos haccepts] at h
                    cases h
                    exact ⟨List.mem_cons_self, haccepts, w, .refl hsize, htry⟩
                  · rw [if_neg haccepts] at h
                    exact hlater h

theorem targets_of_winner (hactions : env.actions.KeepsSlots) (hcalls : calls.Confined) {n : Nat}
    {call : Literal} {rules : List Rule} {w after : World} {r : Rule} {result : Fuzzy Bool}
    {own : Context} (hsize : n ≤ w.store.slots.size) (hcall : call.Open n w.store)
    (h : winner env calls call rules w = (.ok (some (r, result, own)), after)) :
    r ∈ rules ∧ env.strategy.accepts result = true ∧ own.Distinct ∧
      own.Targets (r.Reaches call) := by
  obtain ⟨hmem, haccepts, before, hspares, htry⟩ := tried_of_winner hactions hcalls hsize h
  exact ⟨hmem, haccepts,
    targets_of_tryRule hactions hcalls (hcall.spares hspares).unbound htry⟩

end Execution

/-! ## What the caller sees -/

/-- Executions that spare the slots of a context leave its values. -/
theorem Context.Owns.value?_of_spares {s after : Store} {c : Context} (howns : c.Owns s)
    (h : s.Spares s.slots.size after) (name : Path) : c.value? after name = c.value? s name := by
  unfold value?
  cases hx : c.get? name with
  | none => rfl
  | some x => exact Variable.value?_of_spares h fun i hi => howns.inside hx hi

theorem Context.forall_value? {s : Store} {c : Context} {P : Term → Prop}
    (h : ∀ x ∈ c.vars, ∀ t, x.value? s = some t → P t) (name : Path) (t : Term)
    (ht : c.value? s name = some t) : P t := by
  obtain ⟨x, hx, hvalue⟩ := Option.bind_eq_some_iff.1 ht
  exact h x (List.mem_of_find?_eq_some hx) t hvalue

/-- A name stands for the same variable with the same value as before. -/
abbrev Frame.Unchanged (name : Path) (before after : Frame) : Prop :=
  before.scope.Unchanged name after.scope

/--
What the answer of a rule has changed for its caller: a variable keeps its value
unless it is an unbound one of the call or the rule itself writes to it, and a
variable that one relocating variable stands for has its value.
-/
structure Rule.Answered (r : Rule) (l : Literal) (own : Context) (middle : World)
    (before after : Frame) : Prop where
  kept : ∀ name, name ∉ r.outward →
    (name ∈ l.occurrences.map Variable.name →
      before.context.value? before.world.store name ≠ none) → before.Unchanged name after
  written : ∀ name x, own.vars.filter (·.target? = some name) = [x] →
    (∀ t, x.value? middle.store = some t →
      after.context.value? after.world.store name = some t) ∧
    (x.value? middle.store = none → before.Unchanged name after)

/-- The values of the rule that answers can be written to the caller, in whatever order. -/
theorem Rule.exists_answered {r : Rule} {l called : Literal} {own : Context} {frame : Frame}
    {middle : World} {vars : List Variable} (hvars : vars.Perm own.vars)
    (howns : frame.context.Owns frame.world.store)
    (hspares : frame.world.store.Spares frame.world.store.slots.size middle.store)
    (hcalled : ∀ x ∈ called.occurrences, x ∈ l.occurrences ∧
      frame.context.value? frame.world.store x.name = none)
    (houtward : ∀ name ∈ r.outward, frame.context.fixes name = false) (hdistinct : own.Distinct)
    (htargets : own.Targets (r.Reaches called)) :
    ∃ count scope,
      Context.propagate vars ⟨middle.store, frame.context⟩ = (.ok count, scope) ∧
      r.Answered l own middle frame
        ⟨middle.countEnumeration.withStore scope.store, scope.context⟩ := by
  let pairs := vars.filterMap Variable.outward?
  have hreach : ∀ name ∈ pairs.map Prod.fst, r.Reaches called name := by
    intro name hname
    obtain ⟨pair, hpair, rfl⟩ := List.mem_map.1 hname
    exact htargets.of_mem_outward hdistinct ((hvars.filterMap _).subset hpair)
  have hfree : ∀ name ∈ pairs.map Prod.fst, frame.context.fixes name = false := by
    intro name hname
    rcases hreach name hname with hout | hopen
    · exact houtward name hout
    · obtain ⟨x, hx, rfl⟩ := List.mem_map.1 hopen
      refine Bool.eq_false_of_not_eq_true fun hfixed => ?_
      have hbound := Context.isSome_value?_of_fixes hfixed frame.world.store
      rw [(hcalled x hx).2] at hbound
      cases hbound
  obtain ⟨scope, hbind⟩ : ∃ scope,
      Context.bindAll pairs ⟨middle.store, frame.context⟩ = (.ok (), scope) :=
    Context.exists_bindAll_of_not_fixes hfree
  have howns' := howns.mono hspares.size
  obtain ⟨-, hothers⟩ :=
    Context.bindAll_keeps_others ⟨middle.store, frame.context⟩ howns' pairs
  rw [hbind] at hothers
  have hunchanged : ∀ name ∉ pairs.map Prod.fst,
      frame.Unchanged name ⟨middle.countEnumeration.withStore scope.store, scope.context⟩ := by
    intro name hname
    have hmiddle : frame.scope.Unchanged name ⟨middle.store, frame.context⟩ :=
      ⟨rfl, howns.value?_of_spares hspares name⟩
    exact hmiddle.trans (hothers name hname)
  refine ⟨_, scope, by rw [Context.propagate_apply, hbind], ⟨?_, ?_⟩⟩
  · intro name hout hbound
    refine hunchanged name fun hname => ?_
    rcases hreach name hname with hmem | hopen
    · exact hout hmem
    · obtain ⟨x, hx, rfl⟩ := List.mem_map.1 hopen
      obtain ⟨hmem, hunbound⟩ := hcalled x hx
      exact hbound (List.mem_map_of_mem hmem) hunbound
  · intro name x hx
    have hlone : vars.filter (·.target? = some name) = [x] :=
      ((hvars.filter _).trans (.of_eq hx)).eq_singleton
    have hpairs := Context.filter_outward_of_lone hlone middle.store
    refine ⟨fun t ht => ?_, fun hnone => hunchanged name fun hname => ?_⟩
    · rw [ht] at hpairs
      refine (Context.value?_of_bindAll howns' hbind name).trans ?_
      rw [Context.lastFor, hpairs]
      rfl
    · rw [hnone, Option.toList_none, List.map_nil, List.filter_eq_nil_iff] at hpairs
      obtain ⟨pair, hpair, hfirst⟩ := List.mem_map.1 hname
      exact hpairs pair hpair (decide_eq_true hfirst)

theorem Strategy.accepts_falsity (strategy : Strategy) : strategy.accepts .falsity = false := by
  cases strategy <;> rfl

namespace Execution

section Answer

variable {env : Environment} {calls : Calls} {l : Literal} {frame : Frame} {middle : World}

theorem callRuleWith_apply (env : Environment) (calls : Calls) (l : Literal) (frame : Frame) :
    callRuleWith env calls l frame =
      let called := frame.context.fill frame.world.store l
      let rules := env.rules.filter (·.accepts called)
      if rules.isEmpty then
        (.error (.failed (.ruleNotFound (called.functor.text ++ "/" ++ toString called.arity))),
          frame)
      else tryRules env calls called rules frame := by
  unfold callRuleWith
  rw [bind_apply, get_apply]
  dsimp only
  split <;> rfl

/-- When no rule answers, the call has an error or a false result, and the context is as before. -/
theorem callRuleWith_unanswered {found : Except (Halt ExecutionError)
      (Option (Rule × Fuzzy Bool × Context))}
    (h : winner env calls (frame.context.fill frame.world.store l)
      (env.rules.filter (·.accepts (frame.context.fill frame.world.store l))) frame.world =
        (found, middle))
    (hnone : ∀ answer, found ≠ .ok (some answer)) :
    (callRuleWith env calls l frame).2 = { frame with world := middle } ∧
      ∀ result, (callRuleWith env calls l frame).1 = .ok result →
        env.strategy.accepts result = false := by
  rw [callRuleWith_apply]
  dsimp only
  split
  · next hempty =>
      rw [List.isEmpty_iff.1 hempty] at h
      cases h
      refine ⟨rfl, ?_⟩
      rintro result ⟨⟩
  · rw [tryRules_apply, h]
    cases found with
    | error halt =>
        refine ⟨rfl, ?_⟩
        rintro result ⟨⟩
    | ok answer =>
        cases answer with
        | some answer => exact absurd rfl (hnone answer)
        | none =>
            refine ⟨rfl, ?_⟩
            rintro result ⟨⟩
            exact env.strategy.accepts_falsity

/-- When a rule answers, the call gives its result and has its values written outward. -/
theorem callRuleWith_answered {r : Rule} {result : Fuzzy Bool} {own : Context}
    {count : Nat} {scope : Context.Scope}
    (h : winner env calls (frame.context.fill frame.world.store l)
      (env.rules.filter (·.accepts (frame.context.fill frame.world.store l))) frame.world =
        (.ok (some (r, result, own)), middle))
    (hwritten : Context.propagate (env.enumeration.order middle.enumerations own.vars)
      ⟨middle.store, frame.context⟩ = (.ok count, scope)) :
    callRuleWith env calls l frame =
      (.ok result, ⟨middle.countEnumeration.withStore scope.store, scope.context⟩) := by
  rw [callRuleWith_apply]
  dsimp only
  split
  · next hempty =>
      rw [List.isEmpty_iff.1 hempty] at h
      cases h
  · rw [tryRules_apply, h]
    dsimp only
    rw [hwritten]

end Answer

/--
A rule call changes its caller in the outputs alone.  When it ends in an error or
its result is not accepted, the caller has the same context with the same values.
Else a rule has answered: of the caller's variables only those have changed that
occur unbound in the call or that the rule itself writes to, and one that a single
relocating variable of the rule's context stands for has the value of that one.
Writing the values of the rule that answers never fails.
-/
theorem callRule_changes_outputs {env : Environment} (hactions : env.actions.KeepsSlots)
    {frame : Frame} (howns : frame.context.Owns frame.world.store)
    (hclosed : ∀ name t, frame.context.value? frame.world.store name = some t →
      t.occurrences = []) {l : Literal}
    (hcall : l.Open frame.world.store.slots.size frame.world.store)
    (houtward : ∀ r ∈ env.rules, ∀ name ∈ r.outward, frame.context.fixes name = false)
    (depth : Nat) :
    let called := frame.context.fill frame.world.store l
    let rules := env.rules.filter (·.accepts called)
    let ran := callRule env depth l frame
    ((∀ result, ran.1 = .ok result → env.strategy.accepts result = false) →
      ran.2.context = frame.context ∧ ∀ name, frame.Unchanged name ran.2) ∧
    (∀ result, ran.1 = .ok result → env.strategy.accepts result = true →
      ∃ n r own middle, depth = n + 1 ∧
        winner env (callsTo env n) called rules frame.world =
          (.ok (some (r, result, own)), middle) ∧
        r.Answered l own middle frame ran.2) ∧
    ∀ n r result own middle, depth = n + 1 →
      winner env (callsTo env n) called rules frame.world =
        (.ok (some (r, result, own)), middle) → ran.1 = .ok result := by
  intro called rules ran
  cases depth with
  | zero =>
      refine ⟨fun _ => ⟨rfl, fun _ => ⟨rfl, rfl⟩⟩, ?_, ?_⟩
      · rintro result ⟨⟩
      · rintro n r result own middle ⟨⟩
  | succ n =>
      have hcalls := callsTo_confined hactions n
      have hcalled : ∀ x ∈ called.occurrences, x ∈ l.occurrences ∧
          frame.context.value? frame.world.store x.name = none :=
        fun x hx => Context.mem_fill hclosed hx
      have hopen : called.Open frame.world.store.slots.size frame.world.store :=
        ⟨fun x hx => hcall.unbound x (hcalled x hx).1, fun x hx => hcall.below x (hcalled x hx).1⟩
      have hspares := (winner_spares hactions hcalls called rules _ frame.world (Nat.le_refl _)).1
      have hanswered : ∀ {r result own middle},
          winner env (callsTo env n) called rules frame.world =
            (.ok (some (r, result, own)), middle) →
          env.strategy.accepts result = true ∧ ran.1 = .ok result ∧
            r.Answered l own middle frame ran.2 := by
        intro r result own middle hwinner
        rw [hwinner] at hspares
        obtain ⟨hr, haccepts, hdistinct, htargets⟩ :=
          targets_of_winner hactions hcalls (Nat.le_refl _) hopen hwinner
        obtain ⟨count, scope, hwritten, hanswered⟩ :=
          Rule.exists_answered (env.enumeration.perm middle.enumerations own.vars) howns hspares
            hcalled (houtward r (List.mem_of_mem_filter hr)) hdistinct htargets
        have hran : ran = _ := callRuleWith_answered hwinner hwritten
        rw [hran]
        exact ⟨haccepts, rfl, hanswered⟩
      refine ⟨fun hrefused => ?_, fun result hresult haccepts => ?_, ?_⟩
      · -- a rule that answers has a result that is accepted
        obtain ⟨hafter, -⟩ := callRuleWith_unanswered rfl fun answer hfound => by
          obtain ⟨r, result, own⟩ := answer
          obtain ⟨haccepts, hresult, -⟩ := hanswered (Prod.ext hfound rfl)
          cases haccepts.symm.trans (hrefused result hresult)
        have hran : ran.2 = { frame with world := _ } := hafter
        rw [hran]
        exact ⟨rfl, fun name => ⟨rfl, howns.value?_of_spares hspares name⟩⟩
      · cases hwinner : winner env (callsTo env n) called rules frame.world with
        | mk found middle =>
            have hanswer : ∃ answer, found = .ok (some answer) := by
              by_contra hnone
              obtain ⟨-, hfalse⟩ := callRuleWith_unanswered hwinner (not_exists.1 hnone)
              cases haccepts.symm.trans (hfalse result hresult)
            obtain ⟨⟨r, answer, own⟩, rfl⟩ := hanswer
            obtain ⟨-, hsame, hanswered⟩ := hanswered hwinner
            cases hsame.symm.trans hresult
            exact ⟨n, r, own, middle, rfl, hwinner, hanswered⟩
      · rintro m r result own middle ⟨⟩ hwinner
        exact (hanswered hwinner).2.1

/-- A rule binds its head variable and fails, and another one answers. -/
theorem callRule_changes_output_of_second_rule :
    let name (text : String) : Path := ⟨[text]⟩
    let call (t : Term) : Literal := ⟨⟨.empty, "r"⟩, [t], [], false, false⟩
    let head := call (.var (.unbound (name "Y")))
    let bindTo (i : Int64) : Step := .assign (name "Y") (.constant (.int i))
    let failing : Rule := ⟨head, [bindTo 1, .test (.constant (.bool false))]⟩
    let answering : Rule := ⟨head, [bindTo 2]⟩
    let env : Environment := { rules := [failing, answering] }
    let x : Variable := .unbound (name "X")
    let frame : Frame := ⟨{}, ⟨[x, ⟨name "Z", .free (some (.raw (.int 0)))⟩]⟩⟩
    let ran := callRule env 1 (call (.var x)) frame
    ran.1 = .ok .truth ∧
      ran.2.context.value? ran.2.world.store (name "X") = some (.raw (.int 2)) ∧
      frame.Unchanged (name "Z") ran.2 := by
  intro name call head bindTo failing answering env x frame ran
  have howns : frame.context.Owns frame.world.store := by
    refine Context.owns_of_vars fun y hy i => ?_
    rcases List.mem_pair.1 hy with rfl | rfl <;> rintro ⟨⟩
  have hclosed : ∀ other t, frame.context.value? frame.world.store other = some t →
      t.occurrences = [] := by
    refine Context.forall_value? fun y hy t ht => ?_
    rcases List.mem_pair.1 hy with rfl | rfl <;> cases ht
    rfl
  have hcall : (call (.var x)).Open frame.world.store.slots.size frame.world.store := by
    refine ⟨fun y hy => ?_, fun y hy i hi => ?_⟩ <;> cases List.mem_singleton.1 hy
    · rfl
    · cases hi
  have houtward : ∀ r ∈ env.rules, ∀ other ∈ r.outward, frame.context.fixes other = false := by
    intro r hr other hother
    rcases List.mem_pair.1 hr with rfl | rfl <;> cases hother
  have hactions : env.actions.KeepsSlots := fun _ _ _ _ _ => rfl
  let own : Context := ⟨[⟨name "Y", .relocate (name "X") (some (.raw (.int 2)))⟩]⟩
  have hfound : (winner env (callsTo env 0) (call (.var x)) [failing, answering] {}).1 =
      .ok (some (answering, .truth, own)) := rfl
  have hchanges := callRule_changes_outputs hactions howns hclosed hcall houtward 1
  have hran : callRule env 1 (call (.var x)) frame = ran := rfl
  rw [hran] at hchanges
  clear_value ran
  obtain ⟨-, hanswer, hresult⟩ := hchanges
  have hresult : ran.1 = .ok .truth := hresult 0 answering .truth own _ rfl (Prod.ext hfound rfl)
  obtain ⟨n, r, found, middle, ⟨⟩, hwinner, hanswered⟩ := hanswer .truth hresult rfl
  cases hfound.symm.trans (congrArg Prod.fst hwinner)
  refine ⟨hresult, (hanswered.written (name "X") _ rfl).1 _ rfl, ?_⟩
  exact hanswered.kept (name "Z") (by decide) fun h => absurd h (by decide)

/--
A relocating variable that the rule itself has overwrites a variable that the call
does not mention.  An action that has got hold of a slot writes to it even when the
rule fails afterwards.
-/
theorem callRule_writes_outward :
    let name (text : String) : Path := ⟨[text]⟩
    let p (t : Term) : Literal := ⟨⟨.empty, "p"⟩, [t], [], false, false⟩
    let call : Literal := ⟨⟨.empty, "r"⟩, [], [], false, false⟩
    let r : Rule := ⟨call, [.unify (p (.var ⟨name "R", .relocate (name "Z") none⟩)) none false]⟩
    let beliefs := BeliefGraph.rooted.setHeld BeliefGraph.root ⟨false, "p"⟩ [p (.raw (.int 1))]
    let frame : Frame := ⟨{ beliefs }, ⟨[⟨name "Z", .free (some (.raw (.int 0)))⟩]⟩⟩
    let ran := callRule { rules := [r] } 1 call frame
    let fill (host : Host) : Host := { host with store := host.store.writeSlot 0 (.raw (.int 1)) }
    let poke : Action := ⟨"poke", 0, fun _ _ _ => do modify fill; pure (.falsity, [])⟩
    let actions := ActionRegistry.empty.register poke
    let poking : Rule := ⟨call, [.action (name "poke") [] []]⟩
    let m : Variable := ⟨name "M", .mutex 0⟩
    let start : Frame := ⟨{ host := { store := { slots := #[none] } } }, ⟨[m]⟩⟩
    let poked := callRule { actions, rules := [poking] } 1 call start
    (ran.1 = .ok .truth ∧
      frame.context.value? frame.world.store (name "Z") = some (.raw (.int 0)) ∧
      ran.2.context.value? ran.2.world.store (name "Z") = some (.raw (.int 1))) ∧
    poked.1 = .ok .falsity ∧ m.value? start.world.store = none ∧
      m.value? poked.2.world.store = some (.raw (.int 1)) :=
  ⟨⟨rfl, rfl, rfl⟩, rfl, rfl, rfl⟩

end Execution

end Deliberation
