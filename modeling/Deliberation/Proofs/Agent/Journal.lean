import Deliberation.Proofs.Agent.History
import Deliberation.Proofs.Belief.Journal
import Deliberation.Proofs.Value.Unboxing

/-!
# The journal of an agent

The belief triggers that an agent queues of its own accord are a journal of its
beliefs.  However requests and cycles follow each other, and wherever an error
stops a plan, replaying the triggers on the first beliefs gives the beliefs of
the moment, and each trigger tells a real change.
-/

namespace Deliberation

/--
Whether the actions of a registry leave all boxes as they are.  Boxes that never
change cannot tell when they were made, so that the heap stands for all those
that the agent, its actions and its callers ever use.
-/
def ActionRegistry.KeepsBoxes (registry : ActionRegistry) : Prop :=
  ∀ name parallel c arguments host,
    (registry.execute name parallel c arguments host).2.store.heap = host.store.heap

namespace ActionRegistry

theorem keepsBoxes_empty : empty.KeepsBoxes := fun _ _ _ _ _ => rfl

theorem KeepsBoxes.register {registry : ActionRegistry} (hregistry : registry.KeepsBoxes)
    {action : Action}
    (haction : ∀ parallel c arguments host,
      (action.run parallel c arguments host).2.store.heap = host.store.heap) :
    (registry.register action).KeepsBoxes := by
  intro name parallel c arguments host
  have hget : (registry.register action).get? name =
      if action.name = name then some action else registry.get? name :=
    Table.get?_insert _ _ _ _
  have hothers := hregistry name parallel c arguments host
  unfold execute at hothers ⊢
  rw [hget]
  by_cases hname : action.name = name
  · rw [if_pos hname]
    dsimp only
    split
    · rfl
    · exact haction parallel c arguments host
  · rw [if_neg hname]
    exact hothers

/-- The built-in actions print and raise errors, and change no box. -/
theorem keepsBoxes_builtins : builtins.KeepsBoxes := by
  refine (keepsBoxes_empty.register ?_).register ?_
  · intro parallel c arguments host
    rfl
  · intro parallel c arguments host
    cases arguments with
    | nil => rfl
    | cons condition rest =>
        simp only [Action.throw, Action.rawArgument, bind_apply, get_apply]
        cases condition.rawValue host.store with
        | error e => rfl
        | ok v =>
            dsimp only [pure_apply]
            cases host.store.heap.asBool v with
            | error e => rfl
            | ok holds => cases holds <;> rfl

end ActionRegistry

/-! ## Executions -/

namespace World

/-- What an execution did to the beliefs is what the triggers it raised announce. -/
structure Journaled (w after : World) (raised : List Trigger) : Prop where
  heap : after.store.heap = w.store.heap
  emitted : after.emitted = w.emitted ++ raised
  beliefs : w.beliefs.Replayed w.store.heap after.beliefs raised

theorem Journaled.still {w after : World} (hheap : after.store.heap = w.store.heap)
    (hemitted : after.emitted = w.emitted) (hbeliefs : after.beliefs = w.beliefs) :
    w.Journaled after [] where
  heap := hheap
  emitted := by rw [hemitted, List.append_nil]
  beliefs := by
    rw [hbeliefs]
    exact .nil _ _

theorem Journaled.trans {w middle after : World} {first second : List Trigger}
    (hfirst : w.Journaled middle first) (hsecond : middle.Journaled after second) :
    w.Journaled after (first ++ second) where
  heap := hsecond.heap.trans hfirst.heap
  emitted := by rw [hsecond.emitted, hfirst.emitted, List.append_assoc]
  beliefs := by
    have hbeliefs := hsecond.beliefs
    rw [hfirst.heap] at hbeliefs
    exact hfirst.beliefs.append hbeliefs

/-- Counting an outcome raises at most the deletion of a goal. -/
theorem journaled_conclude (w : World) (p : Plan) (event : Trigger) (goal : Literal)
    (succeeded : Bool) (index : Nat) (state : PlanState) :
    w.Journaled ((w.conclude p event goal succeeded).setState index state)
      (deletions event goal succeeded) := by
  rw [conclude_eq]
  refine ⟨rfl, rfl, ?_⟩
  unfold deletions
  split
  · exact .goal _ _ rfl
  · exact .nil _ _

end World

theorem Course.journaled {actions : ActionRegistry} (hboxes : actions.KeepsBoxes)
    {ending : Ending} {w after : World} (course : Course actions ending w after)
    (htree : w.beliefs.IsTree) : ∃ raised, w.Journaled after raised := by
  induction course with
  | refl w => exact ⟨[], .still rfl rfl rfl⟩
  | slots w s hheap => exact ⟨[], .still hheap rfl rfl⟩
  | enumerate w => exact ⟨[], .still rfl rfl rfl⟩
  | act w name parallel c arguments =>
      exact ⟨[], .still (hboxes name parallel c arguments w.host) rfl rfl⟩
  | ask w goal => exact ⟨_, rfl, rfl, .goal _ _ rfl⟩
  | confirm w l g hadd => exact ⟨[], rfl, (List.append_nil _).symm, .confirm htree hadd⟩
  | believe w l g hadd => exact ⟨_, rfl, rfl, .believe hadd⟩
  | miss w l g hremove => exact ⟨[], rfl, (List.append_nil _).symm, .miss htree hremove⟩
  | forget w l g hremove => exact ⟨_, rfl, rfl, .forget hremove⟩
  | consider w p event => exact ⟨[], .still rfl rfl rfl⟩
  | @answer w after p event goal succeeded body ih =>
      obtain ⟨raised, hbody⟩ := ih htree
      exact ⟨_, World.Journaled.trans ⟨hbody.heap, hbody.emitted, hbody.beliefs⟩
        (World.journaled_conclude after p event goal succeeded _ _)⟩
  | abandon p event body ih =>
      obtain ⟨raised, hbody⟩ := ih htree
      exact ⟨raised, hbody.heap, hbody.emitted, hbody.beliefs⟩
  | trans first second ihFirst ihSecond =>
      obtain ⟨early, hearly⟩ := ihFirst htree
      obtain ⟨late, hlate⟩ := ihSecond (hearly.beliefs.tree htree)
      exact ⟨early ++ late, hearly.trans hlate⟩
  | halt first ih => exact ih htree
  | resume first second ihFirst ihSecond =>
      obtain ⟨early, hearly⟩ := ihFirst htree
      obtain ⟨late, hlate⟩ := ihSecond (hearly.beliefs.tree htree)
      exact ⟨early ++ late, hearly.trans hlate⟩

/-! ## Requests -/

namespace Agent

/-- What happened to the beliefs of an agent is what triggers announce. -/
structure Journaled (a after : Agent) (raised : List Trigger) : Prop where
  actions : after.actions = a.actions
  heap : after.store.heap = a.store.heap
  beliefs : a.beliefs.Replayed a.store.heap after.beliefs raised

theorem Journaled.refl (a : Agent) : a.Journaled a [] := ⟨rfl, rfl, .nil _ _⟩

theorem Journaled.trans {a middle after : Agent} {first second : List Trigger}
    (hfirst : a.Journaled middle first) (hsecond : middle.Journaled after second) :
    a.Journaled after (first ++ second) where
  actions := hsecond.actions.trans hfirst.actions
  heap := hsecond.heap.trans hfirst.heap
  beliefs := by
    have hbeliefs := hsecond.beliefs
    rw [hfirst.heap] at hbeliefs
    exact hfirst.beliefs.append hbeliefs

theorem journaled_addBelief {a changed : Agent} {l : Literal} {added : Bool}
    (htree : a.beliefs.IsTree) (hadd : a.addBelief l = .ok (added, changed)) :
    a.Journaled changed (a.raisedByAdding l) := by
  unfold raisedByAdding
  rw [hadd]
  unfold addBelief at hadd
  cases hgraph : a.beliefs.add a.store.heap BeliefGraph.root l (some BeliefGraph.blank) with
  | error e =>
      rw [hgraph] at hadd
      cases hadd
  | ok answer =>
      obtain ⟨isNew, beliefs⟩ := answer
      rw [hgraph] at hadd
      cases hadd
      cases added with
      | true => exact ⟨rfl, rfl, .believe hgraph⟩
      | false => exact ⟨rfl, rfl, .confirm htree hgraph⟩

theorem journaled_removeBelief {a : Agent} (htree : a.beliefs.IsTree) (l : Literal) :
    a.Journaled (a.removeBelief l).2 (a.raisedByRemoving l) := by
  unfold raisedByRemoving removeBelief
  cases hgraph : a.beliefs.remove a.store.heap BeliefGraph.root l with
  | mk removed beliefs =>
      cases removed with
      | true => exact ⟨rfl, rfl, .forget hgraph⟩
      | false => exact ⟨rfl, rfl, .miss htree hgraph⟩

theorem journaled_removeAll {a : Agent} (htree : a.beliefs.IsTree) (literals : List Literal) :
    a.Journaled (a.removeAll literals) (a.raisedByRemovingAll literals) := by
  unfold removeAll
  induction literals generalizing a with
  | nil => exact .refl a
  | cons l rest ih =>
      have hfirst := journaled_removeBelief htree l
      exact hfirst.trans (ih (hfirst.beliefs.tree htree))

theorem journaled_addAll {a : Agent} (htree : a.beliefs.IsTree) (literals : List Literal) :
    a.Journaled (a.addAll literals).2 (a.raisedByAddingAll literals) := by
  induction literals generalizing a with
  | nil => exact .refl a
  | cons l rest ih =>
      unfold addAll raisedByAddingAll
      cases hadd : a.addBelief l with
      | error e => exact .refl a
      | ok answer =>
          obtain ⟨added, changed⟩ := answer
          have hfirst := journaled_addBelief htree hadd
          exact hfirst.trans (ih (hfirst.beliefs.tree htree))

theorem journaled_cycle {a : Agent} (hboxes : a.actions.KeepsBoxes) (htree : a.beliefs.IsTree)
    (depth : Nat) :
    a.Journaled (a.cycle depth).2 ((a.dispatches depth).flatMap Dispatch.raised) := by
  have hcourse : Course a.actions (.ofHalt (a.answered depth).halt) a.world
      (a.answered depth).world := answer_follows a.environment depth {} a.world _
  obtain ⟨raised, hjournal⟩ := hcourse.journaled hboxes htree
  have hemitted : (a.answered depth).world.emitted =
      (a.dispatches depth).flatMap Dispatch.raised :=
    emitted_answer a.environment depth {} a.world _
  have hraised : (a.dispatches depth).flatMap Dispatch.raised = raised :=
    hemitted.symm.trans hjournal.emitted
  rw [hraised, cycle_agent]
  exact ⟨rfl, hjournal.heap, hjournal.beliefs⟩

/-! ## Runs -/

/-- The belief triggers that an agent queues of its own accord on a request. -/
def announcedBy (a : Agent) : Request → List Trigger
  | .trigger _ => []
  | r => (a.raisedBy r).filter fun t => !t.isGoal

/-- The belief triggers that an agent queues of its own accord on requests in turn. -/
def journal (a : Agent) : List Request → List Trigger
  | [] => []
  | r :: rest => a.announcedBy r ++ journal (a.after r) rest

theorem journaled_after {a : Agent} (hboxes : a.actions.KeepsBoxes) (htree : a.beliefs.IsTree)
    (r : Request) : a.Journaled (a.after r) (a.announcedBy r) := by
  have hfilter : ∀ {after raised}, a.Journaled after raised →
      a.Journaled after (raised.filter fun t => !t.isGoal) :=
    fun h => ⟨h.actions, h.heap, h.beliefs.filter⟩
  cases r with
  | trigger t => exact ⟨rfl, rfl, .nil _ _⟩
  | addBelief l =>
      refine hfilter ?_
      cases hadd : a.addBelief l with
      | error e =>
          simp only [after, raisedBy, raisedByAdding, hadd]
          exact .refl a
      | ok answer =>
          obtain ⟨added, changed⟩ := answer
          simp only [after, raisedBy, hadd]
          exact journaled_addBelief htree hadd
  | removeBelief l => exact hfilter (journaled_removeBelief htree l)
  | perceive added removed =>
      refine hfilter ?_
      have hremoved := journaled_removeAll htree removed
      exact hremoved.trans (journaled_addAll (hremoved.beliefs.tree htree) added)
  | cycle depth => exact hfilter (journaled_cycle hboxes htree depth)

theorem journaled_run {h : History} (hboxes : h.agent.actions.KeepsBoxes)
    (htree : h.agent.beliefs.IsTree) (requests : List Request) :
    h.agent.Journaled (h.run requests).agent (h.agent.journal requests) := by
  unfold History.run
  induction requests generalizing h with
  | nil => exact .refl h.agent
  | cons r rest ih =>
      have hfirst := journaled_after hboxes htree r
      have hactions : (h.next r).agent.actions = h.agent.actions := hfirst.actions
      exact hfirst.trans (ih (hactions ▸ hboxes) (hfirst.beliefs.tree htree))

theorem isGoal_of_mem_journal {a : Agent} {requests : List Request} {t : Trigger}
    (ht : t ∈ a.journal requests) : t.isGoal = false := by
  induction requests generalizing a with
  | nil => cases ht
  | cons r rest ih =>
      rcases List.mem_append.1 ht with ht | ht
      · cases r with
        | trigger _ => cases ht
        | addBelief _ => simpa using (List.mem_filter.1 ht).2
        | removeBelief _ => simpa using (List.mem_filter.1 ht).2
        | perceive _ _ => simpa using (List.mem_filter.1 ht).2
        | cycle _ => simpa using (List.mem_filter.1 ht).2
      · exact ih ht

/-- Where only goals are asked for, no other belief trigger is ever queued. -/
theorem filter_appended_run (h : History) {requests : List Request}
    (hgoals : ∀ t, Request.trigger t ∈ requests → t.isGoal = true) :
    (h.run requests).appended.filter (fun t => !t.isGoal) =
      h.appended.filter (fun t => !t.isGoal) ++ h.agent.journal requests := by
  unfold History.run
  induction requests generalizing h with
  | nil => exact (List.append_nil _).symm
  | cons r rest ih =>
      have hraised : (h.agent.raisedBy r).filter (fun t => !t.isGoal) = h.agent.announcedBy r := by
        cases r with
        | trigger t => simp [raisedBy, announcedBy, hgoals t List.mem_cons_self]
        | _ => rfl
      have hrest := ih (h.next r) fun t ht => hgoals t (List.mem_cons_of_mem r ht)
      rw [List.foldl_cons, hrest, History.next, List.filter_append, hraised, List.append_assoc]
      rfl

theorem isTree_addBeliefs {heap : Heap} {g after : BeliefGraph} {literals : List Literal}
    (htree : g.IsTree) (hadd : addBeliefs heap g literals = .ok after) : after.IsTree := by
  induction literals generalizing g with
  | nil =>
      cases hadd
      exact htree
  | cons l rest ih =>
      unfold addBeliefs at hadd
      cases hfirst : g.add heap BeliefGraph.root l (some BeliefGraph.blank) with
      | error e =>
          rw [hfirst] at hadd
          cases hadd
      | ok answer =>
          obtain ⟨added, changed⟩ := answer
          rw [hfirst] at hadd
          refine ih ?_ hadd
          cases added with
          | true => exact (BeliefGraph.Replayed.believe hfirst).tree htree
          | false => exact (BeliefGraph.Replayed.confirm htree hfirst).tree htree

/--
The belief triggers of an agent are an exact journal of its beliefs.  After any
requests, replaying the triggers that the agent queued of its own accord on the
beliefs of its specification gives its beliefs of the moment; each trigger tells
a real change, so that those about one belief alternate.  Where only goals are
asked for, these are all the belief triggers ever queued.  Two normal literals
are one belief when they are equal; where no box contains itself, this comparison
always comes to an end.
-/
theorem replay_journal {config : Config} {spec : AgentSpec} {actions : ActionRegistry}
    {host : Host} {a : Agent} (hbuild : build config spec actions host = .ok a)
    (hboxes : actions.KeepsBoxes) (requests : List Request) :
    let heap := host.store.heap
    let journal := a.journal requests
    addBeliefs heap .rooted spec.beliefs = .ok a.beliefs ∧
    ((∀ t, Request.trigger t ∈ requests → t.isGoal = true) →
      ((History.start a).run requests).appended.filter (fun t => !t.isGoal) = journal) ∧
    a.beliefs.replay heap journal = ((History.start a).run requests).agent.beliefs ∧
    a.beliefs.Genuine heap journal ∧
    (heap.Acyclic → ∀ l, Alternating (a.beliefs.containsLiteral heap BeliefGraph.root l)
      ((journal.filter fun t => t.literal.sameBelief heap l).map Trigger.kind)) ∧
    ∀ l m : Literal, l.Normal → m.Normal → l.sameBelief heap m = l.equal heap m := by
  intro heap journal
  obtain ⟨hbeliefs, hactions, hstore⟩ : addBeliefs heap .rooted spec.beliefs = .ok a.beliefs ∧
      a.actions = actions ∧ a.store = host.store := by
    obtain ⟨beliefs, hbeliefs, rfl⟩ := eq_of_build hbuild
    exact ⟨hbeliefs, rfl, rfl⟩
  have htree : a.beliefs.IsTree := isTree_addBeliefs BeliefGraph.isTree_rooted hbeliefs
  have hrun : a.beliefs.Replayed a.store.heap ((History.start a).run requests).agent.beliefs
      journal := (journaled_run (h := History.start a) (hactions ▸ hboxes) htree requests).beliefs
  rw [hstore] at hrun
  refine ⟨hbeliefs, ?_, hrun.result.symm, hrun.genuine, ?_,
    fun l m => Literal.sameBelief_of_normal heap⟩
  · intro hgoals
    have hfirst : (History.start a).appended.filter (fun t => !t.isGoal) = [] := by
      rw [History.appended_start_of_build hbuild]
      cases spec.goal <;> rfl
    rw [filter_appended_run (History.start a) hgoals, hfirst, List.nil_append]
    rfl
  · intro _ l
    have halternating := hrun.genuine.alternating htree l
    have hfilter : journal.filter (fun t => !t.isGoal && t.literal.sameBelief heap l) =
        journal.filter fun t => t.literal.sameBelief heap l :=
      List.filter_congr fun t ht => by rw [isGoal_of_mem_journal ht]; rfl
    rw [← hfilter]
    exact halternating

/-- A plan changes beliefs until an action stops it, perceptions undo that, and it runs again. -/
theorem replay_journal_of_stopped_plan :
    let fact (name : String) : Literal := ⟨⟨.empty, name⟩, [], [], false, false⟩
    let plan := Plan.build .empty ⟨.addGoal, fact "go"⟩ none
      [.addBelief (fact "b"), .removeBelief (fact "a"),
        .action ⟨["generic", "throw"]⟩ [.raw (.bool true)] [], .addBelief (fact "c")] []
    let requests : List Request :=
      [.cycle 3, .perceive [fact "a"] [fact "b"], .trigger ⟨.addGoal, fact "go"⟩, .cycle 3]
    let built := build { workerThreads := 1 }
      { beliefs := [fact "a"], goal := some (fact "go"), plans := [plan] } .builtins {}
    ∃ a, built = .ok a ∧
      (a.journal requests).map Trigger.kind =
        [.addBelief, .deleteBelief, .deleteBelief, .addBelief, .addBelief, .deleteBelief] ∧
      a.beliefs.replay .empty (a.journal requests) =
        ((History.start a).run requests).agent.beliefs ∧
      Alternating (a.beliefs.containsLiteral .empty BeliefGraph.root (fact "a"))
        (((a.journal requests).filter fun t => t.literal.sameBelief .empty (fact "a")).map
          Trigger.kind) := by
  intro fact plan requests built
  obtain ⟨a, hbuild, hkinds⟩ : ∃ a, built = .ok a ∧ (a.journal requests).map Trigger.kind =
      [.addBelief, .deleteBelief, .deleteBelief, .addBelief, .addBelief, .deleteBelief] :=
    ⟨_, rfl, by decide⟩
  have hacyclic : Heap.empty.Acyclic := by
    refine ⟨fun _ => 0, ?_⟩
    intro b c hc
    rw [Heap.read_of_size_le (Nat.zero_le b)] at hc
    cases hc
  obtain ⟨-, -, hreplay, -, halternating, -⟩ :=
    replay_journal hbuild ActionRegistry.keepsBoxes_builtins requests
  exact ⟨a, hbuild, hkinds, hreplay, halternating hacyclic (fact "a")⟩

end Agent

end Deliberation
