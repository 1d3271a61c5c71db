import Deliberation.Proofs.Agent.History

/-!
# The account of a cycle

Three records are kept of what becomes of plans: the counters of the library,
the states of the plan instances, and the deletions of goals among the triggers.
They are changed at different moments, and an error may end an execution between
any two of them; the three agree all the same, after every cycle.
-/

namespace Deliberation

/-- The number of instances of a plan that are in a state. -/
def tally (instances : List PlanInstance) (p : Plan) (state : PlanState) : Nat :=
  instances.countP fun i => i.plan.key = p.key && i.state = state

/-- The number of failed instances that answered anything but the deletion of a goal. -/
def failures (instances : List PlanInstance) : Nat :=
  instances.countP fun i => i.state = .failed && i.event.kind ≠ .deleteGoal

/-- The number of deletions of goals among triggers. -/
def goalDeletions (triggers : List Trigger) : Nat :=
  triggers.countP fun t => t.kind = .deleteGoal

/--
What an execution made of plans: the instances that it added and the triggers
that it raised, against the counters before and after it.
-/
structure Account (ending : Ending) (before after : PlanLibrary)
    (instances : List PlanInstance) (raised : List Trigger) : Prop where
  successful : ∀ p, (after.statistic p).successful =
    (before.statistic p).successful + tally instances p .succeeded
  failed : ∀ p, (after.statistic p).failed =
    (before.statistic p).failed + tally instances p .failed
  deleted : goalDeletions raised = failures instances
  decided : ∀ i ∈ instances, i.state ≠ .guardChecked
  ended : ending = .complete → ∀ i ∈ instances, i.state ≠ .executing

namespace Account

variable {ending : Ending} {before middle after : PlanLibrary}
  {instances later : List PlanInstance} {raised more : List Trigger}

/-- Without plans the counters stay, and no goal is deleted. -/
theorem idle (library : PlanLibrary) (hraised : goalDeletions raised = 0) :
    Account .complete library library [] raised where
  successful _ := rfl
  failed _ := rfl
  deleted := hraised
  decided := by simp
  ended := by simp

/-- Two executions one after the other; the whole is complete only if both are. -/
theorem append {whole first second : Ending}
    (hfirst : Account first before middle instances raised)
    (hsecond : Account second middle after later more)
    (hwhole : whole = .complete → first = .complete ∧ second = .complete) :
    Account whole before after (instances ++ later) (raised ++ more) where
  successful p := by
    rw [hsecond.successful, hfirst.successful]
    simp [tally, Nat.add_assoc]
  failed p := by
    rw [hsecond.failed, hfirst.failed]
    simp [tally, Nat.add_assoc]
  deleted := by
    have hold := hfirst.deleted
    have hnew := hsecond.deleted
    simp only [goalDeletions, failures, List.countP_append] at *
    rw [hold, hnew]
  decided := by
    intro i hi
    rcases List.mem_append.1 hi with hold | hnew
    · exact hfirst.decided i hold
    · exact hsecond.decided i hnew
  ended := by
    intro hcomplete i hi
    obtain ⟨hfirstEnd, hsecondEnd⟩ := hwhole hcomplete
    rcases List.mem_append.1 hi with hold | hnew
    · exact hfirst.ended hfirstEnd i hold
    · exact hsecond.ended hsecondEnd i hnew

theorem halt (account : Account ending before after instances raised) :
    Account .halted before after instances raised where
  successful := account.successful
  failed := account.failed
  deleted := account.deleted
  decided := account.decided
  ended := by simp

/-- A plan that was bound to an event and not executed. -/
theorem considered (library : PlanLibrary) (p : Plan) (event : Trigger) :
    Account .complete library library [⟨p, event, .instantiated⟩] [] where
  successful q := by simp [tally]
  failed q := by simp [tally]
  deleted := rfl
  decided := by simp
  ended := by simp

/-- A plan whose body was stopped, with what its body made of other plans. -/
theorem abandoned (p : Plan) (event : Trigger)
    (body : Account .halted before after instances raised) :
    Account .halted before after (⟨p, event, .executing⟩ :: instances) raised where
  successful q := by
    rw [body.successful]
    simp [tally]
  failed q := by
    rw [body.failed]
    simp [tally]
  deleted := by
    rw [body.deleted]
    simp [failures]
  decided := by
    intro i hi
    rcases List.mem_cons.1 hi with rfl | hbody
    · simp
    · exact body.decided i hbody
  ended := by simp

/-- A plan whose body ended, with what its body made of other plans. -/
theorem answered (p : Plan) (event : Trigger) (goal : Literal) (succeeded : Bool)
    (body : Account .complete before after instances raised) :
    Account .complete before (after.record p succeeded)
      (⟨p, event, .ofOutcome succeeded⟩ :: instances)
      (raised ++ World.deletions event goal succeeded) where
  successful q := by
    rw [PlanLibrary.statistic_record]
    by_cases hkey : p.key = q.key
    · cases succeeded with
      | true => simp [hkey, body.successful, tally, PlanState.ofOutcome, Nat.add_assoc]
      | false => simp [hkey, body.successful, tally, PlanState.ofOutcome]
    · simp [hkey, body.successful, tally]
  failed q := by
    rw [PlanLibrary.statistic_record]
    by_cases hkey : p.key = q.key
    · cases succeeded with
      | true => simp [hkey, body.failed, tally, PlanState.ofOutcome]
      | false => simp [hkey, body.failed, tally, PlanState.ofOutcome, Nat.add_assoc]
    · simp [hkey, body.failed, tally]
  deleted := by
    have hbody := body.deleted
    unfold goalDeletions failures at hbody ⊢
    rw [List.countP_append, List.countP_cons, hbody]
    cases succeeded with
    | true => simp [World.deletions, PlanState.ofOutcome]
    | false => by_cases hkind : event.kind = .deleteGoal <;>
        simp [World.deletions, PlanState.ofOutcome, hkind]
  decided := by
    intro i hi
    rcases List.mem_cons.1 hi with rfl | hbody
    · cases succeeded <;> simp [PlanState.ofOutcome]
    · exact body.decided i hbody
  ended := by
    intro _ i hi
    rcases List.mem_cons.1 hi with rfl | hbody
    · cases succeeded <;> simp [PlanState.ofOutcome]
    · exact body.ended rfl i hbody

end Account

namespace World

/-- Setting the state of one instance leaves those before and behind it. -/
theorem setState_instances {w : World} {earlier later : List PlanInstance} {i : PlanInstance}
    (hinstances : w.instances = earlier ++ i :: later) (state : PlanState) :
    (w.setState earlier.length state).instances = earlier ++ { i with state } :: later := by
  simp [setState, hinstances, List.modify_eq_take_cons_drop]

end World

/-- Every execution has an account. -/
theorem Course.account {actions : ActionRegistry} {ending : Ending} {w after : World}
    (course : Course actions ending w after) :
    ∃ instances raised, after.instances = w.instances ++ instances ∧
      after.emitted = w.emitted ++ raised ∧
      Account ending w.library after.library instances raised := by
  induction course with
  | refl w => exact ⟨[], [], by simp, by simp, .idle _ rfl⟩
  | slots w s hheap =>
      exact ⟨[], [], by simp [World.withStore], by simp [World.withStore], .idle _ rfl⟩
  | enumerate w =>
      exact ⟨[], [], (List.append_nil _).symm, (List.append_nil _).symm, .idle _ rfl⟩
  | act w name parallel c arguments => exact ⟨[], [], by simp, by simp, .idle _ rfl⟩
  | ask w goal => exact ⟨[], _, by simp [World.emit], rfl, .idle _ rfl⟩
  | confirm w l g hadd => exact ⟨[], [], by simp, by simp, .idle _ rfl⟩
  | believe w l g hadd => exact ⟨[], _, by simp [World.emit], rfl, .idle _ rfl⟩
  | miss w l g hremove => exact ⟨[], [], by simp, by simp, .idle _ rfl⟩
  | forget w l g hremove => exact ⟨[], _, by simp [World.emit], rfl, .idle _ rfl⟩
  | consider w p event => exact ⟨_, [], rfl, by simp [World.note], .considered _ p event⟩
  | @answer w after p event goal succeeded body ih =>
      obtain ⟨instances, raised, hinstances, hemitted, account⟩ := ih
      rw [World.conclude_eq]
      refine ⟨_, _, World.setState_instances (i := ⟨p, event, .executing⟩) ?_ _, ?_,
        account.answered p event goal succeeded⟩
      · rw [hinstances]
        simp [World.note]
      · change after.emitted ++ _ = _
        rw [hemitted, List.append_assoc]
        rfl
  | abandon p event body ih =>
      obtain ⟨instances, raised, hinstances, hemitted, account⟩ := ih
      refine ⟨_, raised, ?_, hemitted, account.abandoned p event⟩
      rw [hinstances]
      simp [World.note]
  | trans first second ihFirst ihSecond =>
      obtain ⟨instances, raised, hinstances, hemitted, account⟩ := ihFirst
      obtain ⟨later, more, hlater, hmore, next⟩ := ihSecond
      exact ⟨_, _, by rw [hlater, hinstances, List.append_assoc],
        by rw [hmore, hemitted, List.append_assoc],
        account.append next fun hending => ⟨rfl, hending⟩⟩
  | halt first ih =>
      obtain ⟨instances, raised, hinstances, hemitted, account⟩ := ih
      exact ⟨instances, raised, hinstances, hemitted, account.halt⟩
  | resume first second ihFirst ihSecond =>
      obtain ⟨instances, raised, hinstances, hemitted, account⟩ := ihFirst
      obtain ⟨later, more, hlater, hmore, next⟩ := ihSecond
      exact ⟨_, _, by rw [hlater, hinstances, List.append_assoc],
        by rw [hmore, hemitted, List.append_assoc],
        account.append next fun hending => by cases hending⟩

namespace Agent

/-- The instances and triggers of a cycle account for the counters that it changed. -/
theorem account_cycle (a : Agent) (depth : Nat) :
    Account (.ofHalt (a.answered depth).halt) a.library (a.cycle depth).2.library
      (a.cycle depth).2.running ((a.dispatches depth).flatMap Dispatch.raised) := by
  have hcourse := answer_follows a.environment depth {} a.world
    (a.pending.take a.config.maxTriggersPerCycle)
  have hraised : (a.answered depth).world.emitted =
      (a.dispatches depth).flatMap Dispatch.raised :=
    emitted_answer a.environment depth {} a.world _
  obtain ⟨instances, raised, hinstances, hemitted, account⟩ := hcourse.account
  -- a cycle starts with neither instances nor raised triggers
  have hrunning : (a.cycle depth).2.running = instances := by
    rw [cycle_agent]
    exact hinstances
  have hqueued : (a.dispatches depth).flatMap Dispatch.raised = raised := by
    rw [← hraised]
    exact hemitted
  rw [hrunning, hqueued, cycle_agent]
  exact account

/--
The account of a cycle, however it ends.  The counters of a plan grow by the
numbers of its instances that succeeded and that failed; the deletions of goals
among the triggers put in the queue are as many as the failed instances that
answered anything but the deletion of a goal; no instance stays checked by its
guard; and in a cycle that ends well none stays in execution.
-/
theorem cycle_accounts (a : Agent) (depth : Nat) :
    let raised := (a.dispatches depth).flatMap Dispatch.raised
    let after := (a.cycle depth).2
    (∀ p, (after.library.statistic p).successful =
      (a.library.statistic p).successful + tally after.running p .succeeded) ∧
    (∀ p, (after.library.statistic p).failed =
      (a.library.statistic p).failed + tally after.running p .failed) ∧
    (a.dispatches depth).map Dispatch.trigger ++ after.pending = a.pending ++ raised ∧
    goalDeletions raised = failures after.running ∧
    (∀ i ∈ after.running, i.state ≠ .guardChecked) ∧
    (∀ report, (a.cycle depth).1 = .ok report →
      ∀ i ∈ after.running, i.state ≠ .executing) := by
  intro raised after
  have account := account_cycle a depth
  refine ⟨account.successful, account.failed, handed_append_cycle a depth, account.deleted,
    account.decided, ?_⟩
  intro report hreport
  apply account.ended
  rw [answered_complete hreport]
  rfl

end Agent

end Deliberation
