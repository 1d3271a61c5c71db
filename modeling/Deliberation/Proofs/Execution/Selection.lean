import Deliberation.Proofs.Execution.Announcement
import Deliberation.Proofs.Execution.Shape
import Deliberation.Proofs.Plan.Roster

/-!
# The plan that answers a trigger

The plans of a group are tried in the order in which they were added.  A plan is
passed over when its trigger literal does not bind the event, or when its guard
rejects what was bound; the second kind is noted among the instances, and nothing
else is left of either but slots that nobody had before.  The first plan that is
not passed over decides: it is executed, or it stops the dispatch with an error,
and what stands behind it in the group does not matter.
-/

namespace Deliberation

/-- Only new slots have been opened. -/
structure Store.Opens (before after : Store) : Prop where
  spares : before.Spares before.slots.size after
  heap : after.heap = before.heap

namespace Store.Opens

theorem refl (s : Store) : s.Opens s := ⟨.refl (Nat.le_refl _), rfl⟩

theorem trans {first second third : Store} (h : first.Opens second) (h' : second.Opens third) :
    first.Opens third where
  spares := {
    size := Nat.le_trans h.spares.size h'.spares.size
    same := fun i hi =>
      (h'.spares.same i (Nat.lt_of_lt_of_le hi h.spares.size)).trans (h.spares.same i hi) }
  heap := h'.heap.trans h.heap

end Store.Opens

/-! ## One plan -/

namespace Plan

/-- The trigger literal matches an event, and the match has a value for each of its variables. -/
def Binds (p : Plan) (event : Literal) (s : Store) : Prop :=
  ∃ b, Match.bind s p.trigger.literal event = some b ∧ b.size = p.trigger.literal.vars.length

/-- What the guard says of a context; no guard accepts all. -/
def verdict (env : Environment) (p : Plan) (c : Context) (s : Store) :
    Except ExecutionError Bool :=
  match p.guard with
  | none => .ok true
  | some condition => (Expression.evaluateFuzzy s c condition).map env.strategy.accepts

theorem checkGuard_apply (env : Environment) (p : Plan) (c : Context) (w : World) :
    p.checkGuard env c w = ((p.verdict env c w.store).mapError .failed, w) := by
  unfold checkGuard verdict
  cases p.guard with
  | none => rfl
  | some condition =>
      simp only [bind_apply, get_apply]
      cases Expression.evaluateFuzzy w.store c condition <;> rfl

theorem instantiate_of_not_binds {p : Plan} {event : Literal} {w : World}
    (h : ¬ p.Binds event w.store) : p.instantiate event w = (.ok none, w) := by
  simp only [instantiate, bind_apply, get_apply]
  cases hbind : Match.bind w.store p.trigger.literal event with
  | none => rfl
  | some b =>
      dsimp only
      rw [if_pos fun hsize => h ⟨b, hbind, hsize⟩]
      rfl

/-- What a match found is written to a new context of the plan. -/
theorem instantiate_of_match {p : Plan} {event : Literal} {w : World} {b : BindingSet}
    (hbind : Match.bind w.store p.trigger.literal event = some b)
    (hsize : b.size = p.trigger.literal.vars.length) :
    p.instantiate event w =
      match b.apply ⟨(p.context w.store).2, (p.context w.store).1⟩ with
      | (.ok _, scope) => (.ok (some scope.context), w.withStore scope.store)
      | (.error e, scope) => (.error (.failed (.term e)), w.withStore scope.store) := by
  simp only [instantiate, bind_apply, get_apply, hbind, hsize, ne_eq, not_true, if_false,
    Exec.onStore_apply, StepExec.inContext_writing, World.store_withStore]
  rcases b.apply ⟨(p.context w.store).2, (p.context w.store).1⟩ with ⟨e | ⟨⟩, scope⟩ <;> rfl

/-- A plan that binds an event opens slots for its context, and fails or has the context. -/
theorem instantiate_of_binds {p : Plan} {event : Literal} {w : World}
    (h : p.Binds event w.store) :
    ∃ s, w.store.Opens s ∧
      ((∃ c, p.instantiate event w = (.ok (some c), w.withStore s)) ∨
        ∃ halt, p.instantiate event w = (.error halt, w.withStore s)) := by
  obtain ⟨b, hbind, hsize⟩ := h
  have hspares := (p.instantiate_spares (n := w.store.slots.size) event w (Nat.le_refl _)).1
  have hcontext := p.context_leavesBoxes w.store
  have happly := b.apply_leavesBoxes ⟨(p.context w.store).2, (p.context w.store).1⟩
  rw [instantiate_of_match hbind hsize] at hspares ⊢
  cases hwritten : b.apply ⟨(p.context w.store).2, (p.context w.store).1⟩ with
  | mk result scope =>
      rw [hwritten] at hspares happly
      refine ⟨scope.store, ?_⟩
      cases result with
      | ok value => exact ⟨⟨hspares, happly.trans hcontext⟩, .inl ⟨_, rfl⟩⟩
      | error e => exact ⟨⟨hspares, happly.trans hcontext⟩, .inr ⟨_, rfl⟩⟩

end Plan

/-! ## The plans of a group -/

namespace Execution

variable {env : Environment} {calls : Calls} {event : Trigger}

/-- Plans that are tried on an event and passed over, and those of them that are noted. -/
inductive PassedOver (env : Environment) (event : Trigger) :
    List Plan → List Plan → World → World → Prop
  | nil (w : World) : PassedOver env event [] [] w w
  /-- The trigger literal does not bind the event. -/
  | unbound {p : Plan} {tried noted : List Plan} {w after : World}
      (hunbound : ¬ p.Binds event.literal w.store)
      (rest : PassedOver env event tried noted w after) :
      PassedOver env event (p :: tried) noted w after
  /-- The trigger literal binds the event, and the guard rejects the context. -/
  | rejected {p : Plan} {tried noted : List Plan} {c : Context} {w started after : World}
      (hstarted : p.instantiate event.literal w = (.ok (some c), started))
      (hverdict : p.verdict env c started.store = .ok false)
      (rest : PassedOver env event tried noted (started.note p event .instantiated) after) :
      PassedOver env event (p :: tried) (p :: noted) w after

/-- A plan that is not passed over: it cannot be bound, or its guard does not reject. -/
def Decides (env : Environment) (event : Trigger) (p : Plan) (w : World) : Prop :=
  (∃ halt after, p.instantiate event.literal w = (.error halt, after)) ∨
    ∃ c started, p.instantiate event.literal w = (.ok (some c), started) ∧
      p.verdict env c started.store ≠ .ok false

/-- Execute a plan whose instance is the one with an index. -/
def executeNoted (env : Environment) (calls : Calls) (event : Trigger) (p : Plan) (c : Context)
    (index : Nat) (w : World) : Except (Halt ExecutionError) (Option PlanOutcome) × World :=
  match p.execute env calls event c w with
  | (.ok outcome, after) => (.ok (some outcome), after.setState index outcome.state)
  | (.error halt, after) => (.error halt, after)

theorem dispatchTo_of_unbound {p : Plan} {w : World} (h : ¬ p.Binds event.literal w.store)
    (rest : List Plan) :
    dispatchTo env calls event (p :: rest) w = dispatchTo env calls event rest w := by
  rw [dispatchTo, bind_apply, Plan.instantiate_of_not_binds h]

theorem dispatchTo_of_stopped {p : Plan} {w after : World} {halt : Halt ExecutionError}
    (h : p.instantiate event.literal w = (.error halt, after)) (rest : List Plan) :
    dispatchTo env calls event (p :: rest) w = (.error halt, after) := by
  rw [dispatchTo, bind_apply, h]

/-- A plan that is bound is noted, and its guard decides. -/
theorem dispatchTo_of_started {p : Plan} {c : Context} {w started : World}
    (h : p.instantiate event.literal w = (.ok (some c), started)) (rest : List Plan) :
    dispatchTo env calls event (p :: rest) w =
      match p.verdict env c started.store with
      | .error e => (.error (.failed e), started.note p event .instantiated)
      | .ok false => dispatchTo env calls event rest (started.note p event .instantiated)
      | .ok true => executeNoted env calls event p c started.instances.length
          (started.note p event .executing) := by
  have htrack : track p event started =
      (.ok started.instances.length, started.note p event .instantiated) := rfl
  have hstore : (started.note p event .instantiated).store = started.store := rfl
  rw [dispatchTo, bind_apply, h]
  dsimp only
  rw [bind_apply, htrack]
  dsimp only
  rw [bind_apply, Plan.checkGuard_apply, hstore]
  rcases p.verdict env c started.store with e | accepted
  · rfl
  · cases accepted with
    | false => rfl
    | true =>
        -- the two states before the execution leave no trace
        change (p.execute env calls event c >>= fun outcome => do
          setState started.instances.length outcome.state
          pure (some outcome) : Exec (Option PlanOutcome))
            (((started.note p event .instantiated).setState started.instances.length
              .guardChecked).setState started.instances.length .executing) = _
        rw [World.setState_note, World.setState_note, bind_apply, executeNoted]
        rcases p.execute env calls event c (started.note p event .executing) with
          ⟨halt | outcome, after⟩
        · rfl
        · rfl

/-- Plans that are passed over lead to the ones behind them. -/
theorem PassedOver.dispatchTo_append {tried noted : List Plan} {w middle : World}
    (h : PassedOver env event tried noted w middle) (calls : Calls) (rest : List Plan) :
    dispatchTo env calls event (tried ++ rest) w = dispatchTo env calls event rest middle := by
  induction h with
  | nil w => rfl
  | unbound hunbound _ ih => rw [List.cons_append, dispatchTo_of_unbound hunbound, ih]
  | rejected hstarted hverdict _ ih =>
      rw [List.cons_append, dispatchTo_of_started hstarted, hverdict]
      exact ih

/-- What plans that are passed over leave behind: new slots, and the instances that are noted. -/
theorem PassedOver.world_eq {tried noted : List Plan} {w middle : World}
    (h : PassedOver env event tried noted w middle) :
    ∃ s, w.store.Opens s ∧ middle = { w.withStore s with
      instances := w.instances ++ noted.map fun p => ⟨p, event, .instantiated⟩ } := by
  induction h with
  | nil w => exact ⟨w.store, .refl _, by simp; rfl⟩
  | unbound _ _ ih => exact ih
  | @rejected p tried noted c w started after hstarted _ _ ih =>
      obtain ⟨b, hbind, hsize, -⟩ := Plan.match_of_instantiate hstarted
      obtain ⟨opened, hopens, hcases⟩ := Plan.instantiate_of_binds ⟨b, hbind, hsize⟩
      have hworld : started = w.withStore opened := by
        rcases hcases with ⟨c', hc⟩ | ⟨halt, hhalt⟩
        · cases hstarted.symm.trans hc
          rfl
        · cases hstarted.symm.trans hhalt
      subst hworld
      obtain ⟨s, hlater, hafter⟩ := ih
      refine ⟨s, hopens.trans hlater, hafter.trans ?_⟩
      simp only [World.note, World.withStore, List.map_cons, List.append_assoc, List.cons_append,
        List.nil_append]

theorem PassedOver.sublist {tried noted : List Plan} {w middle : World}
    (h : PassedOver env event tried noted w middle) : noted.Sublist tried := by
  induction h with
  | nil w => exact .slnil
  | unbound _ _ ih => exact ih.cons _
  | rejected _ _ _ ih => exact ih.cons_cons _

/-- Either all plans are passed over, or the ones before a plan that decides. -/
theorem passedOver_or_decides (env : Environment) (event : Trigger) (plans : List Plan)
    (w : World) :
    (∃ noted after, PassedOver env event plans noted w after) ∨
      ∃ tried p rest noted middle, plans = tried ++ p :: rest ∧
        PassedOver env event tried noted w middle ∧ Decides env event p middle := by
  induction plans generalizing w with
  | nil => exact .inl ⟨[], w, .nil w⟩
  | cons p plans ih =>
      by_cases hbinds : p.Binds event.literal w.store
      · obtain ⟨opened, -, ⟨c, hstarted⟩ | ⟨halt, hstopped⟩⟩ := Plan.instantiate_of_binds hbinds
        · by_cases hverdict : p.verdict env c (w.withStore opened).store = .ok false
          · rcases ih ((w.withStore opened).note p event .instantiated) with
              ⟨noted, after, hpassed⟩ | ⟨tried, q, rest, noted, middle, rfl, hpassed, hdecides⟩
            · exact .inl ⟨p :: noted, after, .rejected hstarted hverdict hpassed⟩
            · exact .inr ⟨p :: tried, q, rest, p :: noted, middle, rfl,
                .rejected hstarted hverdict hpassed, hdecides⟩
          · exact .inr ⟨[], p, plans, [], w, rfl, .nil w, .inr ⟨c, _, hstarted, hverdict⟩⟩
        · exact .inr ⟨[], p, plans, [], w, rfl, .nil w, .inl ⟨halt, _, hstopped⟩⟩
      · rcases ih w with
          ⟨noted, after, hpassed⟩ | ⟨tried, q, rest, noted, middle, rfl, hpassed, hdecides⟩
        · exact .inl ⟨noted, after, .unbound hbinds hpassed⟩
        · exact .inr ⟨p :: tried, q, rest, noted, middle, rfl, .unbound hbinds hpassed, hdecides⟩

/-- A plan that decides answers the event or stops the dispatch. -/
theorem Decides.dispatchTo_ne_none {p : Plan} {w : World} (h : Decides env event p w)
    (rest : List Plan) : (dispatchTo env calls event (p :: rest) w).1 ≠ .ok none := by
  rcases h with ⟨halt, after, hstopped⟩ | ⟨c, started, hstarted, hverdict⟩
  · rw [dispatchTo_of_stopped hstopped]
    rintro ⟨⟩
  · rw [dispatchTo_of_started hstarted]
    cases hresult : p.verdict env c started.store with
    | error e => rintro ⟨⟩
    | ok accepted =>
        cases accepted with
        | false => exact absurd hresult hverdict
        | true =>
            dsimp only
            unfold executeNoted
            rcases p.execute env calls event c (started.note p event .executing) with
              ⟨halt | outcome, after⟩
            · rintro ⟨⟩
            · rintro ⟨⟩

/-- Nothing answers an event exactly when all plans are passed over. -/
theorem dispatchTo_none_iff (env : Environment) (calls : Calls) (event : Trigger)
    (plans : List Plan) (w after : World) :
    dispatchTo env calls event plans w = (.ok none, after) ↔
      ∃ noted, PassedOver env event plans noted w after := by
  have hnone : ∀ {noted last}, PassedOver env event plans noted w last →
      dispatchTo env calls event plans w = (.ok none, last) := by
    intro noted last h
    have happend := h.dispatchTo_append calls []
    rw [List.append_nil] at happend
    exact happend
  constructor
  · intro hran
    rcases passedOver_or_decides env event plans w with
      ⟨noted, last, hpassed⟩ | ⟨tried, p, rest, noted, middle, rfl, hpassed, hdecides⟩
    · cases hran.symm.trans (hnone hpassed)
      exact ⟨noted, hpassed⟩
    · rw [hpassed.dispatchTo_append] at hran
      exact absurd (congrArg Prod.fst hran) (hdecides.dispatchTo_ne_none rest)
  · rintro ⟨noted, hpassed⟩
    exact hnone hpassed

/--
A trigger is answered by the first plan of its group that binds the event with all
variables and whose guard accepts.  The group lists the plans with the kind and
functor of the trigger as they were added.  Plans that are passed over leave new
slots and, for those that bound the event, an instance each; nothing answers the
trigger exactly when all are passed over.  Behind plans that are passed over, a
plan that cannot be bound or whose guard fails stops the dispatch, and one whose
guard accepts is executed, whatever plans stand behind it; one of the two happens
unless all are passed over.
-/
theorem dispatch_commits_to_first (env : Environment) (calls : Calls) (event : Trigger)
    (w : World) :
    let plans := w.library.candidates event
    let ran := dispatchWith env calls event w
    (∀ r, w.library.Represents r → plans = r.plans.filter fun p =>
      p.trigger.kind = event.kind ∧ p.trigger.literal.functor.path = event.literal.functor.path) ∧
    (∀ tried noted middle, PassedOver env event tried noted w middle →
      noted.Sublist tried ∧ ∃ s, w.store.Opens s ∧ middle = { w.withStore s with
        instances := w.instances ++ noted.map fun p => ⟨p, event, .instantiated⟩ }) ∧
    (∀ after, ran = (.ok none, after) ↔ ∃ noted, PassedOver env event plans noted w after) ∧
    (∀ tried p rest noted middle, plans = tried ++ p :: rest →
      PassedOver env event tried noted w middle →
      (∀ halt after, p.instantiate event.literal middle = (.error halt, after) →
        ran = (.error halt, after)) ∧
      ∀ c started, p.instantiate event.literal middle = (.ok (some c), started) →
        (∀ e, p.verdict env c started.store = .error e →
          ran = (.error (.failed e), started.note p event .instantiated)) ∧
        (p.verdict env c started.store = .ok true →
          ran = executeNoted env calls event p c started.instances.length
            (started.note p event .executing))) ∧
    ((∃ noted after, PassedOver env event plans noted w after) ∨
      ∃ tried p rest noted middle, plans = tried ++ p :: rest ∧
        PassedOver env event tried noted w middle ∧ Decides env event p middle) := by
  intro plans ran
  have hran : ran = dispatchTo env calls event plans w := rfl
  refine ⟨fun r hrepresents => ?_, fun tried noted middle hpassed => ?_, fun after => ?_, ?_,
    passedOver_or_decides env event plans w⟩
  · simpa only [Trigger.key_eq_iff] using hrepresents.candidates_eq event
  · exact ⟨hpassed.sublist, hpassed.world_eq⟩
  · rw [hran, dispatchTo_none_iff]
  · intro tried p rest noted middle hplans hpassed
    rw [hran, hplans, hpassed.dispatchTo_append]
    refine ⟨fun halt after hstopped => dispatchTo_of_stopped hstopped rest, ?_⟩
    intro c started hstarted
    rw [dispatchTo_of_started hstarted]
    refine ⟨fun e hverdict => ?_, fun hverdict => ?_⟩
    · rw [hverdict]
    · rw [hverdict]

/-- The first plan has another arity and the second a guard that rejects; the third one answers,
and the fourth is not tried. -/
theorem dispatch_commits_to_third :
    let g (arguments : List Term) : Literal := ⟨⟨.empty, "g"⟩, arguments, [], false, false⟩
    let free (name : String) : Term := .var (.unbound ⟨[name]⟩)
    let plan (arguments : List Term) (guard : Option Expression) (goal : String) : Plan :=
      .build .empty ⟨.addGoal, g arguments⟩ guard
        [.achieve ⟨⟨.empty, goal⟩, [], [], false, false⟩ false] []
    let other := plan [free "X", free "Y"] none "a"
    let rejected := plan [free "X"] (some (.constant (.bool false))) "b"
    let answering := plan [free "X"] none "c"
    let behind := plan [free "X"] none "d"
    let event : Trigger := ⟨.addGoal, g [.raw (.int 1)]⟩
    let library : PlanLibrary := ⟨⟨[(event.key, [other, rejected, answering, behind])]⟩, []⟩
    let w : World := { library }
    let ran := dispatchWith {} (callsTo {} 0) event w
    ran.2.emitted.map (·.literal.functor.name) = ["c"] ∧
      ran.2.instances = [⟨rejected, event, .instantiated⟩, ⟨answering, event, .succeeded⟩] := by
  intro g free plan other rejected answering behind event library w ran
  obtain ⟨-, -, -, hdecided, -⟩ := dispatch_commits_to_first {} (callsTo {} 0) event w
  have hplans : w.library.candidates event = [other, rejected] ++ answering :: [behind] := by
    simp [w, library, PlanLibrary.candidates, Table.get?, Table.find]
  have hunbound : ¬ other.Binds event.literal w.store := by
    rintro ⟨b, hb, -⟩
    cases hb
  let c : Context := ⟨[⟨⟨["X"]⟩, .free (some (.raw (.int 1)))⟩]⟩
  have hrejected : rejected.instantiate event.literal w = (.ok (some c), w) := rfl
  have hanswering : answering.instantiate event.literal (w.note rejected event .instantiated) =
      (.ok (some c), w.note rejected event .instantiated) := rfl
  have hran : ran = executeNoted {} (callsTo {} 0) event answering c 1
      ((w.note rejected event .instantiated).note answering event .executing) :=
    ((hdecided _ _ _ _ _ hplans
      (.unbound hunbound (.rejected hrejected rfl (.nil _)))).2 _ _ hanswering).2 rfl
  rw [hran]
  exact ⟨rfl, rfl⟩

end Execution

end Deliberation
