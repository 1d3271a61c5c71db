/-!
# Worker pool

A pool has at least one worker.  Whatever worker finishes first, results count
in the order of the items: the first match is the one with the lowest index, and
the results of all items are listed in the order of the items.

The items are evaluated here in turn, which is what one worker does, and one of the
schedules of several.  Where the evaluations do not change what others read, the
schedule makes no difference.  Attempts at a unification share the slots of mutex
variables, and what other workers write to them is left out here: `Unifier.race` runs
the attempts in any order of their steps, and `Unifier.Ends` is what a unification on
a pool may come to.
-/

namespace Deliberation

/-- A number of workers. -/
structure Pool where
  threads : Nat
  positive : 1 ≤ threads

namespace Pool

/-- A pool with the wanted number of workers, and with one when none are wanted. -/
def ofThreads (threads : Nat) : Pool := ⟨max threads 1, Nat.le_max_right _ _⟩

/-- Evaluate items from an index on, in turn, up to the first one that gives a result. -/
def firstMatchFrom {m : Type → Type} [Monad m] {α β : Type} (f : Nat → α → m (Option β)) :
    Nat → List α → m (Option β)
  | _, [] => pure none
  | index, item :: rest => do
      match ← f index item with
      | some result => pure (some result)
      | none => firstMatchFrom f (index + 1) rest

/--
The result for the item with the lowest index that gives one.  Items behind it are not
evaluated, though other workers may have started on them.
-/
def firstMatch {m : Type → Type} [Monad m] {α β : Type} (_ : Pool) (items : List α)
    (f : Nat → α → m (Option β)) : m (Option β) :=
  firstMatchFrom f 0 items

/--
The results of all items, evaluated in their order.  This is what one worker does;
several may change the state that they share in any order.
-/
def mapAll {m : Type → Type} [Monad m] {α β : Type} (_ : Pool) (items : List α) (f : α → m β) :
    m (List β) :=
  items.mapM f

/-- The text of a pool in a summary. -/
def render (pool : Pool) : String :=
  "WorkerPool \x7b threads: " ++ toString pool.threads ++ " \x7d"

end Pool

end Deliberation
