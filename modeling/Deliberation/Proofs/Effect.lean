/-!
# Effects as functions of their state

An effect with errors is a function from a state to a result and the state
afterwards.  The equations here say what the parts of a `do` block are as such
functions, so that a proof can follow a block from part to part.
-/

namespace Deliberation

variable {ε σ α β : Type}

/-- What follows runs in the state that the first part leaves, unless that part stops. -/
theorem bind_apply (x : ExceptT ε (StateM σ) α) (f : α → ExceptT ε (StateM σ) β) (s : σ) :
    (x >>= f) s = match x s with
      | (.ok a, s) => f a s
      | (.error e, s) => (.error e, s) := by
  simp only [bind, ExceptT.bind, ExceptT.mk, StateT.bind, ExceptT.bindCont]
  obtain ⟨result, after⟩ := x s
  cases result <;> rfl

theorem pure_apply (a : α) (s : σ) : (pure a : ExceptT ε (StateM σ) α) s = (.ok a, s) := rfl

theorem get_apply (s : σ) : (get : ExceptT ε (StateM σ) σ) s = (.ok s, s) := rfl

theorem set_apply (s after : σ) : (set after : ExceptT ε (StateM σ) PUnit) s = (.ok ⟨⟩, after) :=
  rfl

theorem modify_apply (f : σ → σ) (s : σ) :
    (modify f : ExceptT ε (StateM σ) PUnit) s = (.ok ⟨⟩, f s) := rfl

/-- An effect without errors goes on with its result. -/
theorem lift_apply (x : StateM σ α) (s : σ) :
    (liftM x : ExceptT ε (StateM σ) α) s = (.ok (x s).1, (x s).2) := rfl

theorem throw_apply (e : ε) (s : σ) : (throw e : ExceptT ε (StateM σ) α) s = (.error e, s) := rfl

theorem mapError_ok {ε' : Type} (f : ε → ε') (a : α) :
    (Except.ok a : Except ε α).mapError f = .ok a := rfl

end Deliberation
