import Deliberation.Proofs.Effect

/-!
# Effects side by side

Two executions are compared step by step: from related states they come to
related states, and both give related results or both stop with errors of one
kind.  The texts in errors do not count.
-/

namespace Deliberation

variable {ε ε' κ κ' σ τ α β γ δ : Type}

/-- What a change makes of something. -/
def Becomes (change : α → β) (a : α) (b : β) : Prop := b = change a

/-- Two results, of which both are related values or both are errors of one kind. -/
inductive Both (kind : ε → κ) (A : α → β → Prop) : Except ε α → Except ε β → Prop
  | ok {a : α} {b : β} (h : A a b) : Both kind A (.ok a) (.ok b)
  | error {e e' : ε} (h : kind e = kind e') : Both kind A (.error e) (.error e')

namespace Both

variable {kind : ε → κ} {A : α → β → Prop} {B : γ → δ → Prop} {x : Except ε α} {y : Except ε β}

theorem refl (kind : ε → κ) (x : Except ε α) : Both kind Eq x x := by
  cases x with
  | ok a => exact .ok rfl
  | error e => exact .error rfl

/-- What comes after a value and what a change has made of it. -/
theorem bindBecomes {change : α → β} {f : α → Except ε γ} {g : β → Except ε δ}
    (h : Both kind (Becomes change) x y) (hf : ∀ a, Both kind B (f a) (g (change a))) :
    Both kind B (x >>= f) (y >>= g) := by
  cases h with
  | ok hab => exact hab ▸ hf _
  | error he => exact .error he

theorem bind {f : α → Except ε γ} {g : β → Except ε δ} (h : Both kind A x y)
    (hf : ∀ a b, A a b → Both kind B (f a) (g b)) : Both kind B (x >>= f) (y >>= g) := by
  cases h with
  | ok hab => exact hf _ _ hab
  | error he => exact .error he

/-- What comes after values that are the same. -/
theorem bindEq {z w : Except ε α} {f : α → Except ε γ} {g : α → Except ε δ}
    (h : Both kind Eq z w) (hf : ∀ a, Both kind B (f a) (g a)) :
    Both kind B (z >>= f) (w >>= g) :=
  h.bind fun a _ hab => hab ▸ hf a

theorem mapError {kind' : ε' → κ'} {wrap : ε → ε'}
    (hwrap : ∀ e e', kind e = kind e' → kind' (wrap e) = kind' (wrap e')) (h : Both kind A x y) :
    Both kind' A (x.mapError wrap) (y.mapError wrap) := by
  cases h with
  | ok hab => exact .ok hab
  | error he => exact .error (hwrap _ _ he)

theorem imp {A' : α → β → Prop} (h : Both kind A x y) (hA : ∀ a b, A a b → A' a b) :
    Both kind A' x y := by
  cases h with
  | ok hab => exact .ok (hA _ _ hab)
  | error he => exact .error he

theorem eq {z w : Except ε α} (h : Both id Eq z w) : z = w := by
  cases h with
  | ok hab => exact congrArg Except.ok hab
  | error he => exact congrArg Except.error he

/-- Functions that do not tell related values apart give one result. -/
theorem map_eq {f : α → γ} {g : β → γ} (h : Both id A x y) (hfg : ∀ a b, A a b → f a = g b) :
    x.map f = y.map g := by
  cases h with
  | ok hab => exact congrArg Except.ok (hfg _ _ hab)
  | error he => exact congrArg Except.error he

end Both

/-- Two effects that take related states to related results and related states. -/
def Mirrors (kind : ε → κ) (R : σ → τ → Prop) (A : α → β → Prop) (x : ExceptT ε (StateM σ) α)
    (y : ExceptT ε (StateM τ) β) : Prop :=
  ∀ s t, R s t → Both kind A (x s).1 (y t).1 ∧ R (x s).2 (y t).2

namespace Mirrors

variable {kind : ε → κ} {R : σ → τ → Prop} {A : α → β → Prop} {B : γ → δ → Prop}

theorem pure {a : α} {b : β} (h : A a b) :
    Mirrors kind R A (Pure.pure a : ExceptT ε (StateM σ) α) (Pure.pure b) :=
  fun _ _ hst => ⟨.ok h, hst⟩

theorem throw {e e' : ε} (h : kind e = kind e') :
    Mirrors kind R A (MonadExcept.throw e : ExceptT ε (StateM σ) α) (MonadExcept.throw e') :=
  fun _ _ hst => ⟨.error h, hst⟩

theorem get : Mirrors kind R R (MonadState.get : ExceptT ε (StateM σ) σ) MonadState.get :=
  fun _ _ hst => ⟨.ok hst, hst⟩

theorem set {s : σ} {t : τ} (h : R s t) :
    Mirrors kind R Eq (MonadStateOf.set s : ExceptT ε (StateM σ) PUnit) (MonadStateOf.set t) :=
  fun _ _ _ => ⟨.ok rfl, h⟩

theorem modifying {f : σ → σ} {g : τ → τ} (h : ∀ s t, R s t → R (f s) (g t)) :
    Mirrors kind R Eq (modify f : ExceptT ε (StateM σ) PUnit) (modify g) :=
  fun s t hst => ⟨.ok rfl, h s t hst⟩

theorem bind {x : ExceptT ε (StateM σ) α} {y : ExceptT ε (StateM τ) β}
    {f : α → ExceptT ε (StateM σ) γ} {g : β → ExceptT ε (StateM τ) δ} (hx : Mirrors kind R A x y)
    (hf : ∀ a b, A a b → Mirrors kind R B (f a) (g b)) : Mirrors kind R B (x >>= f) (y >>= g) := by
  intro s t hst
  obtain ⟨hresult, hafter⟩ := hx s t hst
  rw [bind_apply, bind_apply]
  cases hxs : x s with
  | mk first middle =>
      cases hyt : y t with
      | mk second other =>
          rw [hxs, hyt] at hresult hafter
          cases hresult with
          | ok hab => exact hf _ _ hab middle other hafter
          | error he => exact ⟨.error he, hafter⟩

/-- What comes after results that are the same. -/
theorem bindEq {x : ExceptT ε (StateM σ) α} {y : ExceptT ε (StateM τ) α}
    {f : α → ExceptT ε (StateM σ) γ} {g : α → ExceptT ε (StateM τ) δ} (hx : Mirrors kind R Eq x y)
    (hf : ∀ a, Mirrors kind R B (f a) (g a)) : Mirrors kind R B (x >>= f) (y >>= g) :=
  hx.bind fun a _ hab => hab ▸ hf a

/-- Both effects take the same way. -/
theorem ite {p q : Prop} [Decidable p] [Decidable q] (hpq : p ↔ q)
    {x x' : ExceptT ε (StateM σ) α} {y y' : ExceptT ε (StateM τ) β} (hpos : Mirrors kind R A x y)
    (hneg : Mirrors kind R A x' y') :
    Mirrors kind R A (if p then x else x') (if q then y else y') := by
  by_cases hp : p
  · rw [if_pos hp, if_pos (hpq.1 hp)]
    exact hpos
  · rw [if_neg hp, if_neg (mt hpq.2 hp)]
    exact hneg

end Mirrors

end Deliberation
