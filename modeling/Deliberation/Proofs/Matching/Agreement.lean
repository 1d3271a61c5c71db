import Deliberation.Proofs.Matching.Attempts
import Deliberation.Proofs.Term.Agreement

/-!
# Candidates in contexts that agree

Candidates are tried in two contexts that agree on the names which the candidates
bind and the guard reads.  The same candidate is accepted in both, or the same
error stops both, and the contexts that come out agree again.  Names that no
candidate binds are left alone.
-/

namespace Deliberation

variable {hidden : SlotId → Prop} {names : Path → Prop}

/-- A guard reads some names of a context and no more. -/
def Guard.Reads (hidden : SlotId → Prop) (names : Path → Prop) (test : Guard) : Prop :=
  ∀ s u c d, Context.Scope.Alike hidden names ⟨s, c⟩ ⟨u, d⟩ →
    Context.Scope.Sealed hidden names ⟨s, c⟩ → test s c = test u d

/-- A candidate binds some names and no more, to terms that do not lead to hidden slots. -/
def BindingSet.Within (hidden : SlotId → Prop) (names : Path → Prop) (b : BindingSet) : Prop :=
  ∀ pair ∈ b.pairs, names pair.1 ∧ pair.2.Avoids hidden

namespace Unifier

/-- Two unifications have ended alike: both accept a candidate, both none, or both in an error. -/
structure Alike (hidden : SlotId → Prop) (names : Path → Prop) (c d : Context)
    (first second : Except ExecutionError (Option Context) × Store) : Prop where
  result : first.1.map Option.isSome = second.1.map Option.isSome
  scope : Context.Scope.Alike hidden names ⟨first.2, committed c first.1⟩
    ⟨second.2, committed d second.1⟩
  hides : Context.Scope.Sealed hidden names ⟨first.2, committed c first.1⟩

theorem Alike.cases {c d : Context}
    {first second : Except ExecutionError (Option Context) × Store}
    (h : Alike hidden names c d first second) :
    (∃ e, first.1 = .error e ∧ second.1 = .error e) ∨
      (first.1 = .ok none ∧ second.1 = .ok none) ∨
      ∃ accepted accepted', first.1 = .ok (some accepted) ∧ second.1 = .ok (some accepted') := by
  obtain ⟨result, s⟩ := first
  obtain ⟨result', u⟩ := second
  have hresult : result.map Option.isSome = result'.map Option.isSome := h.result
  match result, result' with
  | .error e, .error _ =>
      cases hresult
      exact .inl ⟨e, rfl, rfl⟩
  | .ok none, .ok none => exact .inr (.inl ⟨rfl, rfl⟩)
  | .ok (some _), .ok (some _) => exact .inr (.inr ⟨_, _, rfl, rfl⟩)

section Attempts

variable (strategy : Strategy) {c d : Context} (guard : Option Guard) {s u : Store}

/-- What is written is the same, and the guard cannot tell the two contexts apart. -/
theorem attempt_alike (hguard : ∀ test ∈ guard, test.Reads hidden names)
    (h : Context.Scope.Alike hidden names ⟨s, c⟩ ⟨u, d⟩)
    (hsealed : Context.Scope.Sealed hidden names ⟨s, c⟩) {b : BindingSet}
    (hb : b.Within hidden names) :
    Alike hidden names c d (attempt strategy c guard b s) (attempt strategy d guard b u) := by
  obtain ⟨hresult, halike⟩ := h.bindAll fun pair hpair => (hb pair hpair).1
  have hhides := hsealed.bindAll h.owns.1 fun pair hpair => (hb pair hpair).2
  have hc := b.apply_evolves ⟨s, c⟩
  have hd := b.apply_evolves ⟨u, d⟩
  unfold attempt
  rw [bind_apply, bind_apply, get_apply, get_apply]
  dsimp only
  unfold BindingSet.apply at hc hd ⊢
  cases hfirst : Context.bindAll b.pairs ⟨s, c⟩ with
  | mk written scope =>
      cases hsecond : Context.bindAll b.pairs ⟨u, d⟩ with
      | mk written' scope' =>
          rw [hfirst] at hresult halike hhides hc
          rw [hsecond] at hresult halike hd
          dsimp only at hresult
          subst hresult
          have hdropped := h.discard halike hc hd
          have hdroppedHides := hsealed.discard hhides hc
          cases written with
          | error e => exact ⟨rfl, hdropped, hdroppedHides⟩
          | ok done =>
              cases guard with
              | none => exact ⟨rfl, halike, hhides⟩
              | some test =>
                  have hverdict := hguard test rfl _ _ _ _ halike hhides
                  simp only [bind_apply, set_apply, hverdict]
                  cases test scope'.store scope'.context with
                  | error e => exact ⟨rfl, hdropped, hdroppedHides⟩
                  | ok verdict =>
                      dsimp only [pure_apply]
                      split
                      · exact ⟨rfl, halike, hhides⟩
                      · exact ⟨rfl, hdropped, hdroppedHides⟩

theorem firstAccepted_alike (hguard : ∀ test ∈ guard, test.Reads hidden names)
    (h : Context.Scope.Alike hidden names ⟨s, c⟩ ⟨u, d⟩)
    (hsealed : Context.Scope.Sealed hidden names ⟨s, c⟩) {sets : List BindingSet}
    (hsets : ∀ b ∈ sets, b.Within hidden names) :
    Alike hidden names c d (firstAccepted strategy c guard sets s)
      (firstAccepted strategy d guard sets u) := by
  induction sets generalizing s u with
  | nil => exact ⟨rfl, h, hsealed⟩
  | cons b rest ih =>
      obtain ⟨hb, hrest⟩ := List.forall_mem_cons.1 hsets
      have htried := attempt_alike strategy guard hguard h hsealed hb
      rw [firstAccepted, firstAccepted, bind_apply, bind_apply]
      cases hfirst : attempt strategy c guard b s with
      | mk result middle =>
          cases hsecond : attempt strategy d guard b u with
          | mk result' middle' =>
              rw [hfirst, hsecond] at htried
              rcases htried.cases with ⟨e, rfl, rfl⟩ | ⟨rfl, rfl⟩ | ⟨a, b, rfl, rfl⟩
              · exact htried
              · -- what the rejected candidate wrote to slots is there for the next one
                exact ih htried.scope htried.hides hrest
              · exact htried

theorem attempt_keeps_others (howns : c.Owns s) (b : BindingSet) {name : Path}
    (hname : name ∉ b.pairs.map Prod.fst) :
    Context.Scope.Unchanged name ⟨s, c⟩
      ⟨(attempt strategy c guard b s).2, committed c (attempt strategy c guard b s).1⟩ := by
  have hkept := (Context.bindAll_keeps_others ⟨s, c⟩ howns b.pairs).2 name hname
  unfold attempt
  rw [bind_apply, get_apply]
  dsimp only
  unfold BindingSet.apply
  cases happly : Context.bindAll b.pairs ⟨s, c⟩ with
  | mk written scope =>
      rw [happly] at hkept
      cases written with
      | error e => exact hkept.discard
      | ok done =>
          cases guard with
          | none => exact hkept
          | some test =>
              simp only [bind_apply, set_apply]
              cases test scope.store scope.context with
              | error e => exact hkept.discard
              | ok verdict =>
                  dsimp only [pure_apply]
                  split
                  · exact hkept
                  · exact hkept.discard

/-- A name that no candidate binds has its value however many candidates are tried. -/
theorem firstAccepted_keeps_others (howns : c.Owns s) {sets : List BindingSet} {name : Path}
    (hname : ∀ b ∈ sets, name ∉ b.pairs.map Prod.fst) :
    Context.Scope.Unchanged name ⟨s, c⟩
      ⟨(firstAccepted strategy c guard sets s).2,
        committed c (firstAccepted strategy c guard sets s).1⟩ := by
  induction sets generalizing s with
  | nil => exact .refl name _
  | cons b rest ih =>
      obtain ⟨hfirst, hrest⟩ := List.forall_mem_cons.1 hname
      have hkept := attempt_keeps_others strategy guard howns b hfirst
      have hsize := (attempt_evolves strategy c guard b s).size
      rw [firstAccepted, bind_apply]
      cases htried : attempt strategy c guard b s with
      | mk result middle =>
          rw [htried] at hkept hsize
          cases result with
          | error e => exact hkept
          | ok found =>
              cases found with
              | some accepted => exact hkept
              | none => exact hkept.trans (ih (howns.mono hsize) hrest)

end Attempts

end Unifier

end Deliberation
