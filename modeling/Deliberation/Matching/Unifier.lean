import Deliberation.Belief.Listing
import Deliberation.Fuzzy
import Deliberation.Matching.Match
import Deliberation.Pool

/-!
# Unifying a query with the beliefs

The bound variables of the query are filled in from the context, the beliefs
with its negation flag and functor are matched against it, and the matches that
bind all the variables left in the query are tried in order.  Each is written to
a copy of the context; the first copy that the guard accepts is the result.

A query without a match is no error.  Slots of mutex variables are shared by all
the copies, so what an attempt writes to them stays, also when it is rejected.

On a pool the attempts are made here in turn as well, which is one schedule of its
workers.  The others give the same where no variable left in the query is a mutex
variable; where one is, the workers write to one slot, and `Unifier.race` has all
their schedules.
-/

namespace Deliberation

/-- A test of a context. -/
abbrev Guard := Store → Context → Except ExecutionError (Fuzzy Bool)

/-- A strategy, and a pool for candidates that are tried in parallel. -/
structure Unifier where
  strategy : Strategy
  pool : Option Pool := none

namespace Unifier

/--
The binding sets of the beliefs that match a query and bind the required number
of variables.  Structural matches count only when there is no exact one.
-/
def candidates (s : Store) (g : BeliefGraph) (v : ViewId) (query : Literal) (required : Nat) :
    List BindingSet :=
  let stored := g.matching v query.negated query.functor.path
  let exact := stored.filterMap (Match.exact s query)
  let sets := if exact.isEmpty then stored.filterMap (Match.structural s query) else exact
  sets.filter fun b => b.size = required

/-- Operations that may write to slots.  What was written before an error stays. -/
abbrev Attempt := ExceptT ExecutionError (StateM Store)

/-- Write a binding set to a copy of a context, and keep the copy if the guard accepts it. -/
def attempt (strategy : Strategy) (c : Context) (guard : Option Guard) (b : BindingSet) :
    Attempt (Option Context) := do
  let (result, scope) := b.apply ⟨← get, c⟩
  set scope.store
  match result with
  | .error e => throw (.term e)
  | .ok () =>
      match guard with
      | none => pure (some scope.context)
      | some test =>
          match test scope.store scope.context with
          | .error e => throw e
          | .ok verdict => pure (if strategy.accepts verdict then some scope.context else none)

/-- The first context that comes out of an attempt. -/
def firstAccepted (strategy : Strategy) (c : Context) (guard : Option Guard) :
    List BindingSet → Attempt (Option Context)
  | [] => pure none
  | b :: rest => do
      match ← attempt strategy c guard b with
      | some committed => pure (some committed)
      | none => firstAccepted strategy c guard rest

/--
Unify a query with the beliefs below a view.  The result extends the context by
bindings for the variables of the query; without a match there is none.  What other
workers of a pool write to slots meanwhile is left out, see `Unifier.Ends`.
-/
def unify (u : Unifier) (g : BeliefGraph) (v : ViewId) (query : Literal) (c : Context)
    (guard : Option Guard) (parallel : Bool) : Attempt (Option Context) := do
  let s ← get
  let query := c.fill s query
  let sets := candidates s g v query query.vars.length
  match parallel, u.pool with
  | true, some pool => pool.firstMatch sets fun _ b => attempt u.strategy c guard b
  | _, _ => firstAccepted u.strategy c guard sets

/-- Whether a query unifies with the beliefs. -/
def holds (u : Unifier) (g : BeliefGraph) (v : ViewId) (query : Literal) (c : Context)
    (guard : Option Guard) (parallel : Bool) : Attempt (Fuzzy Bool) := do
  let committed ← u.unify g v query c guard parallel
  pure (.certain committed.isSome)

end Unifier

end Deliberation
