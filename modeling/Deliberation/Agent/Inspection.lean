import Deliberation.Agent.Cycle

/-!
# Looking at an agent

An inspection is a summary of the state of an agent between two cycles.  The
trace writes it down as a list of events with named fields.
-/

namespace Deliberation

/-- The state of an agent as an observer sees it. -/
structure Inspection where
  cycle : Nat
  /-- The functors of the beliefs with the number of literals. -/
  beliefs : List (Path × Nat)
  plans : List (Plan × PlanStatistic)
  rules : List Rule
  running : List PlanInstance
  pending : Nat

/-- The value of a field of an event. -/
inductive EventField where
  | number (n : Nat)
  | text (s : String)

/-- A message with named fields. -/
structure Event where
  message : String
  fields : List (String × EventField)

namespace Agent

/-- Look at an agent. -/
def inspect (a : Agent) : Inspection where
  cycle := a.cycles
  beliefs := (a.beliefs.literals BeliefGraph.root).entries.map fun (path, ls) => (path, ls.length)
  plans := a.library.listing
  rules := a.rules
  running := a.running
  pending := a.pending.length

end Agent

namespace Inspection

/-- The events of a trace. -/
def events (s : Store) (i : Inspection) : List Event :=
  [⟨"cycle time", [("cycle", .number i.cycle)]⟩] ++
    (i.beliefs.map fun (path, n) =>
      ⟨"beliefs", [("path", .text path.text), ("count", .number n)]⟩) ++
    (i.plans.map fun (p, stat) =>
      ⟨"plan", [("plan", .text (p.render s)), ("successful", .number stat.successful),
        ("failed", .number stat.failed)]⟩) ++
    (i.rules.map fun r => ⟨"rule", [("rule", .text (r.render s))]⟩) ++
    (i.running.map fun instance_ =>
      ⟨"plan instance", [("plan", .text (instance_.plan.render s)),
        ("event", .text (instance_.event.render s)),
        ("state", .text instance_.state.name)]⟩) ++
    [⟨"pending triggers", [("pending", .number i.pending)]⟩]

end Inspection

end Deliberation
