import Deliberation.Matching.Unifier
import Deliberation.Proofs.Term.Writing

/-!
# Candidates in turn

Candidates are tried in their order, without a pool and in the one schedule of a
pool where its workers take turns.  Each is written to the context that the
unification started with, in the store that the candidates before it have left.  The
other schedules are those of `Unifier.race`.
-/

namespace Deliberation

/-- The context of a scope is dropped, what was written to its slots stays. -/
theorem Context.Scope.Evolves.discard {s after : Store} {c d : Context}
    (h : Scope.Evolves ⟨s, c⟩ ⟨after, d⟩) : Scope.Evolves ⟨s, c⟩ ⟨after, c⟩ where
  size := h.size
  bound := h.bound
  spared := h.spared
  slots := id
  distinct := id
  known hx := ⟨_, hx, .refl _⟩
  new hnone hsome := by
    rw [hnone] at hsome
    cases hsome

namespace Unifier

/-- The context that goes on: the one that was accepted, or else the one before. -/
def committed (c : Context) : Except ExecutionError (Option Context) → Context
  | .ok (some accepted) => accepted
  | _ => c

section Attempts

variable (strategy : Strategy) (c : Context) (guard : Option Guard)

theorem firstMatchFrom_attempt (index : Nat) (sets : List BindingSet) :
    (Pool.firstMatchFrom (fun _ b => attempt strategy c guard b) index sets :
      Attempt (Option Context)) = firstAccepted strategy c guard sets := by
  induction sets generalizing index with
  | nil => rfl
  | cons b rest ih =>
      rw [Pool.firstMatchFrom, firstAccepted]
      congr 1
      funext found
      cases found with
      | some accepted => rfl
      | none => exact ih (index + 1)

theorem attempt_evolves (b : BindingSet) (s : Store) :
    Context.Scope.Evolves ⟨s, c⟩
      ⟨(attempt strategy c guard b s).2, committed c (attempt strategy c guard b s).1⟩ := by
  have happlied := b.apply_evolves ⟨s, c⟩
  unfold attempt
  cases happly : b.apply ⟨s, c⟩ with
  | mk result scope =>
      rw [happly] at happlied
      simp only [bind_apply, get_apply, set_apply, happly]
      cases result with
      | error e => exact happlied.discard
      | ok done =>
          cases guard with
          | none => exact happlied
          | some test =>
              dsimp only
              cases test scope.store scope.context with
              | error e => exact happlied.discard
              | ok verdict =>
                  dsimp only [pure_apply]
                  split
                  · exact happlied
                  · exact happlied.discard

theorem firstAccepted_evolves (sets : List BindingSet) (s : Store) :
    Context.Scope.Evolves ⟨s, c⟩
      ⟨(firstAccepted strategy c guard sets s).2,
        committed c (firstAccepted strategy c guard sets s).1⟩ := by
  induction sets generalizing s with
  | nil => exact .refl _
  | cons b rest ih =>
      have hattempt := attempt_evolves strategy c guard b s
      rw [firstAccepted, bind_apply]
      cases htried : attempt strategy c guard b s with
      | mk result middle =>
          rw [htried] at hattempt
          cases result with
          | error e => exact hattempt
          | ok found =>
              cases found with
              | some accepted => exact hattempt
              | none => exact hattempt.trans (ih middle)

end Attempts

/--
A unification takes the first candidate that is accepted.  In parallel this is the
schedule where the workers take turns; what they write to the slots of mutex variables
in another one is up to `Unifier.race`.
-/
theorem unify_apply (u : Unifier) (g : BeliefGraph) (v : ViewId) (query : Literal) (c : Context)
    (guard : Option Guard) (parallel : Bool) (s : Store) :
    u.unify g v query c guard parallel s =
      firstAccepted u.strategy c guard
        (candidates s g v (c.fill s query) (c.fill s query).vars.length) s := by
  obtain ⟨strategy, pool⟩ := u
  unfold unify
  rw [bind_apply, get_apply]
  cases parallel with
  | false => rfl
  | true =>
      cases pool with
      | none => rfl
      | some pool =>
          dsimp only [Pool.firstMatch]
          rw [firstMatchFrom_attempt]

theorem unify_evolves (u : Unifier) (g : BeliefGraph) (v : ViewId) (query : Literal) (c : Context)
    (guard : Option Guard) (parallel : Bool) (s : Store) :
    Context.Scope.Evolves ⟨s, c⟩
      ⟨(u.unify g v query c guard parallel s).2,
        committed c (u.unify g v query c guard parallel s).1⟩ := by
  rw [unify_apply]
  exact firstAccepted_evolves u.strategy c guard _ s

end Unifier

end Deliberation
