import Deliberation.Execution.Dispatch
import Deliberation.Proofs.Effect
import Deliberation.Proofs.Fuzzy.Collectors

/-!
# Steps one after the other

Running a body in turn is running its front and then, if the front ended
accepted, its back in the world and the context that the front left.  A result
of the front is accepted exactly when the front did not stop, because the
smallest of accepted confidences is accepted too; a front that stops is the
whole run.
-/

namespace Deliberation

/-! ## Conjunctions in turn -/

namespace Conjunction

variable {m : Type → Type} [Monad m] [LawfulMonad m] {α : Type} {strategy : Strategy}

/-- The values that follow start from the confidence that the first ones leave. -/
theorem inTurnFrom_append (strategy : Strategy) (least : Confidence) (count : Nat)
    (first second : List (m (Fuzzy Bool))) :
    inTurnFrom strategy least count (first ++ second) = (do
      let (x, n) ← inTurnFrom strategy least count first
      if x.value then inTurnFrom strategy x.confidence n second else pure (x, n)) := by
  induction first generalizing least count with
  | nil => simp [inTurnFrom]
  | cons value rest ih =>
      rw [List.cons_append, inTurnFrom, inTurnFrom, bind_assoc]
      refine bind_congr fun x => ?_
      cases strategy.accepts x with
      | true => exact ih _ _
      | false => simp

/-- A result together with accepted values that came before it. -/
def after (least : Confidence) (x : Fuzzy Bool) : Fuzzy Bool :=
  if x.value then ⟨true, least.min x.confidence⟩ else x

/-- A smaller confidence and a larger count at the start are those of values that came before. -/
theorem inTurnFrom_shift (strategy : Strategy) (earlier least : Confidence) (before count : Nat)
    (values : List (m (Fuzzy Bool))) :
    inTurnFrom strategy (earlier.min least) (before + count) values = (do
      let (x, n) ← inTurnFrom strategy least count values
      pure (after earlier x, before + n)) := by
  induction values generalizing least count with
  | nil => simp [inTurnFrom, after]
  | cons value rest ih =>
      rw [inTurnFrom, inTurnFrom, bind_assoc]
      refine bind_congr fun x => ?_
      cases strategy.accepts x with
      | true =>
          rw [if_pos rfl, if_pos rfl, Confidence.min_assoc, Nat.add_assoc]
          exact ih _ _
      | false => simp [after, Nat.add_assoc]

theorem inTurnFrom_eq_inTurn (strategy : Strategy) (least : Confidence) (count : Nat)
    (values : List (m (Fuzzy Bool))) :
    inTurnFrom strategy least count values = (do
      let (x, n) ← inTurn strategy values
      pure (after least x, count + n)) := by
  have h := inTurnFrom_shift strategy least .full count 0 values
  rwa [Confidence.min_full] at h

/-- A conjunction in turn ends with a value that is accepted exactly when it is true. -/
theorem inTurnFrom_bind_congr {least : Confidence} (hleast : strategy.grants least = true)
    {f g : Fuzzy Bool × Nat → m α}
    (h : ∀ x n, strategy.accepts x = x.value → f (x, n) = g (x, n)) (count : Nat)
    (values : List (m (Fuzzy Bool))) :
    inTurnFrom strategy least count values >>= f =
      inTurnFrom strategy least count values >>= g := by
  induction values generalizing least count with
  | nil =>
      simp only [inTurnFrom, pure_bind]
      exact h _ _ (Strategy.judges_of_grants fun _ => hleast).judged
  | cons value rest ih =>
      rw [inTurnFrom, bind_assoc, bind_assoc]
      refine bind_congr fun x => ?_
      cases hx : strategy.accepts x with
      | true =>
          refine ih ?_ _
          rw [Strategy.grants_min, hleast, Strategy.grants_of_accepts hx]
          rfl
      | false =>
          simp only [Bool.false_eq_true, if_false, pure_bind]
          exact h _ _ (Strategy.judges_of_false rfl).judged

/-- A conjunction in turn is that of its front and, if that is accepted, of its back. -/
theorem inTurn_append (hbounded : strategy.Bounded) (first second : List (m (Fuzzy Bool))) :
    inTurn strategy (first ++ second) = (do
      let (x, n) ← inTurn strategy first
      if strategy.accepts x then
        let (y, k) ← inTurn strategy second
        pure (if strategy.accepts y then ⟨true, x.confidence.min y.confidence⟩ else y, n + k)
      else pure (x, n)) := by
  rw [inTurn, inTurnFrom_append]
  refine inTurnFrom_bind_congr hbounded.grants_full (fun x n hx => ?_) 0 first
  dsimp only
  rw [hx, inTurnFrom_eq_inTurn]
  cases x.value with
  | false => rfl
  | true =>
      refine inTurnFrom_bind_congr hbounded.grants_full (fun y k hy => ?_) 0 second
      simp only [after, hy]

end Conjunction

/-! ## Bodies -/

namespace Body

variable {env : Environment}

/-- A run goes on after its front only when that ended accepted. -/
theorem runSequence_append (hbounded : env.strategy.Bounded) (calls : Calls)
    (first second : List Step) :
    runSequence env calls (first ++ second) = (do
      let (x, n) ← runSequence env calls first
      if env.strategy.accepts x then
        let (y, k) ← runSequence env calls second
        pure (if env.strategy.accepts y then ⟨true, x.confidence.min y.confidence⟩ else y, n + k)
      else pure (x, n)) := by
  unfold runSequence
  rw [List.map_append, Conjunction.inTurn_append hbounded]

/-- A step that stops is the end of a run, whatever steps follow it. -/
theorem runSequence_cons_of_error {calls : Calls} {step : Step} {frame last : Frame}
    {halt : Halt ExecutionError} (h : step.run env calls false frame = (.error halt, last))
    (rest : List Step) : runSequence env calls (step :: rest) frame = (.error halt, last) := by
  rw [runSequence, List.map_cons, Conjunction.inTurn, Conjunction.inTurnFrom, bind_apply, h]

/-- A step that is not accepted is the end of a run, whatever steps follow it. -/
theorem runSequence_cons_of_rejected {calls : Calls} {step : Step} {frame last : Frame}
    {y : Fuzzy Bool} (h : step.run env calls false frame = (.ok y, last))
    (hy : env.strategy.accepts y = false) (rest : List Step) :
    runSequence env calls (step :: rest) frame = (.ok (⟨false, y.confidence⟩, 1), last) := by
  rw [runSequence, List.map_cons, Conjunction.inTurn, Conjunction.inTurnFrom, bind_apply, h]
  dsimp only
  rw [hy]
  rfl

/--
Running steps in turn is running the first ones and then, if their result is
accepted, the others where those ended.  A step that stops or is not accepted
after accepted ones leaves the frame that the whole run leaves: what came before
it is kept, and what would come after it does nothing.
-/
theorem runSequence_composes (hbounded : env.strategy.Bounded) (calls : Calls)
    (first second : List Step) (frame : Frame) :
    (runSequence env calls (first ++ second) frame =
      match runSequence env calls first frame with
      | (.error halt, middle) => (.error halt, middle)
      | (.ok (x, n), middle) =>
          if env.strategy.accepts x then
            match runSequence env calls second middle with
            | (.error halt, last) => (.error halt, last)
            | (.ok (y, k), last) =>
                (.ok (if env.strategy.accepts y then ⟨true, x.confidence.min y.confidence⟩ else y,
                  n + k), last)
          else (.ok (x, n), middle)) ∧
    ∀ x n middle, runSequence env calls first frame = (.ok (x, n), middle) →
      env.strategy.accepts x = true → ∀ step rest, second = step :: rest →
        (∀ halt last, step.run env calls false middle = (.error halt, last) →
          runSequence env calls (first ++ second) frame = (.error halt, last)) ∧
        (∀ y last, step.run env calls false middle = (.ok y, last) →
          env.strategy.accepts y = false →
          runSequence env calls (first ++ second) frame =
            (.ok (⟨false, y.confidence⟩, n + 1), last)) := by
  rw [runSequence_append hbounded, bind_apply]
  constructor
  · rcases runSequence env calls first frame with ⟨halt | ⟨x, n⟩, middle⟩
    · rfl
    · dsimp only
      cases env.strategy.accepts x with
      | false => rfl
      | true =>
          rw [if_pos rfl, if_pos rfl, bind_apply]
          rcases runSequence env calls second middle with ⟨halt | ⟨y, k⟩, last⟩ <;> rfl
  · rintro x n middle hfirst hx step rest rfl
    rw [hfirst]
    dsimp only
    rw [if_pos hx, bind_apply]
    refine ⟨fun halt last hstep => ?_, fun y last hstep hy => ?_⟩
    · rw [runSequence_cons_of_error hstep]
    · have hrejected : env.strategy.accepts ⟨false, y.confidence⟩ = false :=
        (Strategy.judges_of_false rfl).judged
      rw [runSequence_cons_of_rejected hstep hy]
      dsimp only
      rw [hrejected]
      rfl

/-- Of two goals only the one asked for before the failing step, or before the one that has no
value to count up, is raised. -/
theorem runSequence_composes_at_stopping_steps :
    let goal (functor : String) : Literal := ⟨⟨.empty, functor⟩, [], [], false, false⟩
    let env : Environment := { strategy := .threshold ⟨0x3FE0000000000000⟩ }
    let asking : World := ({} : World).emit ⟨.addGoal, goal "g"⟩
    let ran (step : Step) := runSequence env (Execution.callsTo env 0)
      ([.achieve (goal "g") false] ++ [step, .achieve (goal "h") false]) ⟨{}, .empty⟩
    env.strategy.Bounded ∧
    ran (.removeBelief (goal "q")) = (.ok (.falsity, 2), ⟨asking, .empty⟩) ∧
    ran (.increment ⟨["X"]⟩) =
      (.error (.failed (.term (.unboundVariable "X"))), ⟨asking, .empty⟩) := by
  intro goal env asking ran
  have hbounded : env.strategy.Bounded := by
    rw [Strategy.Bounded]
    decide
  have hfirst : runSequence env (Execution.callsTo env 0) [.achieve (goal "g") false]
      ⟨{}, .empty⟩ = (.ok (.truth, 1), ⟨asking, .empty⟩) := rfl
  have hcomposes (step : Step) := (runSequence_composes hbounded (Execution.callsTo env 0) _
    [step, .achieve (goal "h") false] _).2 _ _ _ hfirst (by decide) step _ rfl
  exact ⟨hbounded, (hcomposes (.removeBelief (goal "q"))).2 .falsity _ rfl rfl,
    (hcomposes (.increment ⟨["X"]⟩)).1 _ _ rfl⟩

end Body

end Deliberation
