import Deliberation.Plan.Basic
import Deliberation.Table

/-!
# Plan library

The library files plans by the kind and functor of their trigger; within a
group they keep the order in which they were added, which is the order in which
they are tried.  Beside the groups it keeps counters for each plan.
-/

namespace Deliberation

/-- How often a plan succeeded and failed. -/
structure PlanStatistic where
  successful : Nat := 0
  failed : Nat := 0
deriving DecidableEq

def PlanStatistic.total (stat : PlanStatistic) : Nat := stat.successful + stat.failed

/-- Plans in groups, and counters by plan key. -/
structure PlanLibrary where
  groups : Table TriggerKey (List Plan) := {}
  statistics : List (PlanKey × PlanStatistic) := []

namespace PlanLibrary

def empty : PlanLibrary := {}

/-- The plans for an event in the order in which they are tried. -/
def candidates (library : PlanLibrary) (t : Trigger) : List Plan :=
  (library.groups.get? t.key).getD []

/-- The counters of a plan. -/
def statistic (library : PlanLibrary) (p : Plan) : PlanStatistic :=
  (Table.find p.key library.statistics).getD {}

/-- Apply a change to the counters under a key, which start at zero. -/
def adjust (key : PlanKey) (f : PlanStatistic → PlanStatistic) :
    List (PlanKey × PlanStatistic) → List (PlanKey × PlanStatistic)
  | [] => [(key, f {})]
  | (k, stat) :: rest => if k = key then (k, f stat) :: rest else (k, stat) :: adjust key f rest

/-- Add a plan unless its group has one with its key.  Tells whether it was added. -/
def add (library : PlanLibrary) (p : Plan) : Bool × PlanLibrary :=
  let group := library.candidates p.trigger
  if group.any (·.key = p.key) then (false, library)
  else
    (true,
      { groups := library.groups.insert p.trigger.key (group ++ [p])
        statistics := adjust p.key id library.statistics })

/-- Add plans in turn, passing over those that are there already. -/
def addAll (library : PlanLibrary) (plans : List Plan) : PlanLibrary :=
  plans.foldl (fun library p => (library.add p).2) library

/-- Remove the plans with a trigger and their counters, and count them. -/
def remove (library : PlanLibrary) (t : Trigger) : Nat × PlanLibrary :=
  let group := library.candidates t
  let removed := (group.filter fun p => p.trigger.same t).map Plan.key
  let kept := group.filter fun p => !p.trigger.same t
  (removed.length,
    { groups :=
        if kept.isEmpty then library.groups.erase t.key else library.groups.insert t.key kept
      statistics := library.statistics.filter fun entry => !removed.contains entry.1 })

/-- Count a success or a failure of a plan. -/
def record (library : PlanLibrary) (p : Plan) (succeeded : Bool) : PlanLibrary :=
  { library with
    statistics :=
      adjust p.key
        (fun stat =>
          if succeeded then { stat with successful := stat.successful + 1 }
          else { stat with failed := stat.failed + 1 })
        library.statistics }

/-- Changing the counters under a key changes what is found under it and under no other. -/
theorem find_adjust (key wanted : PlanKey) (f : PlanStatistic → PlanStatistic)
    (statistics : List (PlanKey × PlanStatistic)) :
    Table.find wanted (adjust key f statistics) =
      if key = wanted then some (f ((Table.find key statistics).getD {}))
      else Table.find wanted statistics := by
  induction statistics with
  | nil => by_cases hkey : key = wanted <;> simp [adjust, Table.find, hkey]
  | cons entry rest ih =>
      obtain ⟨k, stat⟩ := entry
      unfold adjust
      by_cases hk : k = key
      · subst hk
        by_cases hkey : k = wanted <;> simp [Table.find, hkey]
      · by_cases hwanted : k = wanted
        · subst hwanted
          have hne : key ≠ k := fun h => hk h.symm
          simp [Table.find, hk, hne]
        · simp [Table.find, hk, hwanted, ih]

/-- Counting an outcome changes the counters of the plans with the same key. -/
theorem statistic_record (library : PlanLibrary) (p q : Plan) (succeeded : Bool) :
    (library.record p succeeded).statistic q =
      if p.key = q.key then
        if succeeded then
          { library.statistic q with successful := (library.statistic q).successful + 1 }
        else { library.statistic q with failed := (library.statistic q).failed + 1 }
      else library.statistic q := by
  unfold statistic record
  rw [find_adjust]
  by_cases hkey : p.key = q.key
  · cases succeeded <;> simp [hkey]
  · simp [hkey]

/-- All plans, by group and then in the order in which they were added. -/
def plans (library : PlanLibrary) : List Plan := library.groups.values.flatten

/-- All plans with their counters. -/
def listing (library : PlanLibrary) : List (Plan × PlanStatistic) :=
  library.plans.map fun p => (p, library.statistic p)

/-- The number of plans. -/
def size (library : PlanLibrary) : Nat := library.plans.length

end PlanLibrary

end Deliberation
