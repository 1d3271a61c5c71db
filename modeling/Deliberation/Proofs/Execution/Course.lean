import Deliberation.Execution.Dispatch

/-!
# Courses of execution

A course says, without contexts and results, what an execution can do to its
world: every constructor is one kind of change, or puts courses together.  Each
execution of the library takes a course, whatever its environment and its depth,
so that a property of all executions is proved by one induction over courses.
-/

namespace Deliberation

/-- Whether an execution came to its end or was stopped by an error or its depth. -/
inductive Ending where
  | complete
  | halted

/-- The ending that a result tells. -/
def Ending.of {ε α : Type} : Except ε α → Ending
  | .ok _ => .complete
  | .error _ => .halted

/-- The ending that goes with a reason to stop, if there is one. -/
def Ending.ofHalt {ε : Type} : Option (Halt ε) → Ending
  | none => .complete
  | some _ => .halted

namespace World

/-- Note a plan instance in some state behind those made so far. -/
def note (w : World) (p : Plan) (event : Trigger) (state : PlanState) : World :=
  { w with instances := w.instances ++ [⟨p, event, state⟩] }

/--
Count the outcome of a plan; a failed plan raises the deletion of its goal,
unless it answered the deletion of a goal itself.
-/
def conclude (w : World) (p : Plan) (event : Trigger) (goal : Literal) (succeeded : Bool) :
    World :=
  let counted := { w with library := w.library.record p succeeded }
  if !succeeded && event.kind ≠ .deleteGoal then counted.emit ⟨.deleteGoal, goal⟩ else counted

/-- The triggers that the outcome of a plan raises. -/
def deletions (event : Trigger) (goal : Literal) (succeeded : Bool) : List Trigger :=
  if !succeeded && event.kind ≠ .deleteGoal then [⟨.deleteGoal, goal⟩] else []

/-- The outcome of a plan changes the counters and the raised triggers, and nothing else. -/
theorem conclude_eq (w : World) (p : Plan) (event : Trigger) (goal : Literal)
    (succeeded : Bool) :
    w.conclude p event goal succeeded =
      { w with
        library := w.library.record p succeeded
        emitted := w.emitted ++ deletions event goal succeeded } := by
  unfold conclude deletions
  cases hraise : (!succeeded && decide (event.kind ≠ .deleteGoal)) <;> simp [emit]

end World

/-- The state that a plan instance ends in. -/
def PlanState.ofOutcome (succeeded : Bool) : PlanState :=
  if succeeded then .succeeded else .failed

/--
What an execution can do to the world.  The index tells how the execution ends;
a parallel body goes on after a step that was stopped, and is stopped itself.
-/
inductive Course (actions : ActionRegistry) : Ending → World → World → Prop where
  /-- Nothing changes. -/
  | refl (w : World) : Course actions .complete w w
  /-- Slots are opened or filled; the boxes stay as they are. -/
  | slots (w : World) (s : Store) (hheap : s.heap = w.store.heap) :
      Course actions .complete w (w.withStore s)
  /-- The variables of a context are enumerated. -/
  | enumerate (w : World) : Course actions .complete w w.countEnumeration
  /-- An action does what it does to its host. -/
  | act (w : World) (name : String) (parallel : Bool) (c : Context) (arguments : List Term) :
      Course actions .complete w
        { w with host := (actions.execute name parallel c arguments w.host).2 }
  /-- A goal is asked for. -/
  | ask (w : World) (goal : Literal) : Course actions .complete w (w.emit ⟨.addGoal, goal⟩)
  /-- A belief is added that is held already. -/
  | confirm (w : World) (l : Literal) (g : BeliefGraph)
      (hadd : w.beliefs.add w.store.heap BeliefGraph.root l (some BeliefGraph.blank) =
        .ok (false, g)) :
      Course actions .complete w { w with beliefs := g }
  /-- A new belief is added. -/
  | believe (w : World) (l : Literal) (g : BeliefGraph)
      (hadd : w.beliefs.add w.store.heap BeliefGraph.root l (some BeliefGraph.blank) =
        .ok (true, g)) :
      Course actions .complete w (World.emit { w with beliefs := g } ⟨.addBelief, l⟩)
  /-- A belief is to be removed that is not held. -/
  | miss (w : World) (l : Literal) (g : BeliefGraph)
      (hremove : w.beliefs.remove w.store.heap BeliefGraph.root l = (false, g)) :
      Course actions .complete w { w with beliefs := g }
  /-- A belief is removed. -/
  | forget (w : World) (l : Literal) (g : BeliefGraph)
      (hremove : w.beliefs.remove w.store.heap BeliefGraph.root l = (true, g)) :
      Course actions .complete w (World.emit { w with beliefs := g } ⟨.deleteBelief, l⟩)
  /-- A plan matches an event and is not executed. -/
  | consider (w : World) (p : Plan) (event : Trigger) :
      Course actions .complete w (w.note p event .instantiated)
  /-- A plan answers an event, and its body comes to its end. -/
  | answer {w after : World} (p : Plan) (event : Trigger) (goal : Literal) (succeeded : Bool)
      (body : Course actions .complete (w.note p event .executing) after) :
      Course actions .complete w
        ((after.conclude p event goal succeeded).setState w.instances.length
          (.ofOutcome succeeded))
  /-- A plan answers an event, and its body is stopped. -/
  | abandon {w after : World} (p : Plan) (event : Trigger)
      (body : Course actions .halted (w.note p event .executing) after) :
      Course actions .halted w after
  /-- One execution follows another. -/
  | trans {ending : Ending} {w middle after : World}
      (first : Course actions .complete w middle) (second : Course actions ending middle after) :
      Course actions ending w after
  /-- An execution is stopped. -/
  | halt {w after : World} (first : Course actions .complete w after) :
      Course actions .halted w after
  /-- Other steps of a parallel body go on when one was stopped. -/
  | resume {ending : Ending} {w middle after : World}
      (first : Course actions .halted w middle) (second : Course actions ending middle after) :
      Course actions .halted w after

namespace Course

/-- No execution takes back a trigger that was raised. -/
theorem emitted_grows {actions : ActionRegistry} {ending : Ending} {w after : World}
    (course : Course actions ending w after) : w.emitted <+: after.emitted := by
  induction course with
  | refl w => exact List.prefix_rfl
  | slots w s hheap => exact List.prefix_rfl
  | enumerate w => exact List.prefix_rfl
  | act w name parallel c arguments => exact List.prefix_rfl
  | ask w goal => exact List.prefix_append _ _
  | confirm w l g hadd => exact List.prefix_rfl
  | believe w l g hadd => exact List.prefix_append _ _
  | miss w l g hremove => exact List.prefix_rfl
  | forget w l g hremove => exact List.prefix_append _ _
  | consider w p event => exact List.prefix_rfl
  | @answer w after p event goal succeeded body ih =>
      rw [World.conclude_eq]
      exact List.IsPrefix.trans ih (List.prefix_append _ _)
  | abandon p event body ih => exact ih
  | trans first second ihFirst ihSecond => exact ihFirst.trans ihSecond
  | halt first ih => exact ih
  | resume first second ihFirst ihSecond => exact ihFirst.trans ihSecond

end Course

end Deliberation
