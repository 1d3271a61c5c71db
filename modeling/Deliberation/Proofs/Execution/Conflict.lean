import Deliberation.Proofs.Execution.Announcement
import Deliberation.Proofs.Matching.Attempts
import Deliberation.Proofs.Matching.Rejection

/-!
# Matches against constants

A plan is applied to an event, and a query is unified with the beliefs, by writing
a match to a context.  Writing stops at the first name that stands for a constant
there.  This is the only way in which either of them fails: all else that does not
match is no error.
-/

namespace Deliberation

namespace BindingSet

/-- A match is written to a context unless it binds a constant of it. -/
theorem apply_result (b : BindingSet) (scope : Context.Scope) :
    (b.apply scope).1 =
      match b.names.find? scope.context.fixes with
      | some name => .error (.constantRebind name.text)
      | none => .ok () := by
  rw [apply, Context.bindAll_result, pairs, names, List.find?_map, List.find?_map]
  simp only [Function.comp_def]
  cases b.bindings.find? fun binding => scope.context.fixes binding.name <;> rfl

theorem find?_names_eq_none {b : BindingSet} {vars : List Variable}
    (hnames : b.names ⊆ vars.map Variable.name) {fixes : Path → Bool}
    (hfree : ∀ x ∈ vars, fixes x.name = false) : b.names.find? fixes = none := by
  rw [List.find?_eq_none]
  intro name hname
  obtain ⟨x, hx, rfl⟩ := List.mem_map.1 (hnames hname)
  rw [hfree x hx]
  exact Bool.false_ne_true

end BindingSet

/-! ## Plans -/

namespace Plan

/-- Whether a name stands for a constant in the contexts of a plan. -/
def fixes (p : Plan) (name : Path) : Bool :=
  p.constants.any (·.name = name) ||
    (p.vars.find? (·.name = name)).any (·.kind = .constant)

theorem kind_of_mem_constants {p : Plan} {x : Variable} (hx : x ∈ p.constants) :
    x.kind = .constant := by
  obtain ⟨directive, -, hdirective⟩ := List.mem_filterMap.1 hx
  cases directive with
  | atomic => cases hdirective
  | parallel => cases hdirective
  | constant name value =>
      cases hdirective
      rfl

theorem fixes_context (p : Plan) (s : Store) : (p.context s).1.fixes = p.fixes := by
  funext name
  have hinsert : ∀ (constants : List Variable) (c : Context),
      (∀ x ∈ constants, x.kind = .constant) →
        (constants.foldl Context.insert c).fixes name =
          (constants.any (·.name = name) || c.fixes name) := by
    intro constants
    induction constants with
    | nil => exact fun c _ => (Bool.false_or _).symm
    | cons x rest ih =>
        intro c hconstants
        obtain ⟨hfirst, hrest⟩ := List.forall_mem_cons.1 hconstants
        rw [List.foldl_cons, ih _ hrest, List.any_cons, Context.fixes_eq, Context.kind?_insert,
          hfirst, Context.fixes_eq]
        by_cases hname : x.name = name <;> simp [hname]
  have hkinds : ∀ x ∈ p.constants, x.kind = .constant := fun _ => kind_of_mem_constants
  refine (hinsert p.constants (Context.ofVariables p.vars s).1 hkinds).trans ?_
  rw [fixes, Context.fixes_eq, Context.kind?_ofVariables]
  congr 1
  cases p.vars.find? (·.name = name) with
  | none => rfl
  | some x => simp [beq_eq_decide]

/-- A plan fails on an event exactly when it matches and the match binds a constant. -/
theorem instantiate_error_iff (p : Plan) (event : Literal) (w : World)
    (halt : Halt ExecutionError) :
    (p.instantiate event w).1 = .error halt ↔
      ∃ b name, Match.bind w.store p.trigger.literal event = some b ∧
        b.size = p.trigger.literal.vars.length ∧ b.names.find? p.fixes = some name ∧
        halt = .failed (.term (.constantRebind name.text)) := by
  unfold instantiate
  rw [bind_apply, get_apply]
  dsimp only
  cases Match.bind w.store p.trigger.literal event with
  | none =>
      constructor
      · rintro ⟨⟩
      · rintro ⟨b, name, ⟨⟩, -⟩
  | some b =>
      dsimp only
      by_cases hsize : b.size = p.trigger.literal.vars.length
      · have hresult := b.apply_result ⟨(p.context w.store).2, (p.context w.store).1⟩
        rw [p.fixes_context] at hresult
        rw [if_neg (not_not_intro hsize)]
        simp only [bind_apply, Exec.onStore_apply, StepExec.inContext_writing,
          World.store_withStore]
        cases happly : b.apply ⟨(p.context w.store).2, (p.context w.store).1⟩ with
        | mk result scope =>
            rw [happly] at hresult
            cases hconflict : b.names.find? p.fixes with
            | none =>
                rw [hconflict] at hresult
                cases hresult
                constructor
                · rintro ⟨⟩
                · rintro ⟨b', name, ⟨⟩, -, hname, -⟩
                  cases hconflict.symm.trans hname
            | some name =>
                rw [hconflict] at hresult
                cases hresult
                constructor
                · rintro ⟨⟩
                  exact ⟨b, name, rfl, hsize, hconflict, rfl⟩
                · rintro ⟨b', name', ⟨⟩, -, hname, rfl⟩
                  cases hconflict.symm.trans hname
                  rfl
      · rw [if_pos hsize]
        constructor
        · rintro ⟨⟩
        · rintro ⟨b', name, ⟨⟩, hfull, -⟩
          exact absurd hfull hsize

end Plan

namespace Unifier

/-- Without a guard the first candidate decides: it is taken, unless it binds a constant. -/
theorem unify_error_iff (u : Unifier) (g : BeliefGraph) (v : ViewId) (query : Literal)
    (c : Context) (parallel : Bool) (s : Store) (e : ExecutionError) :
    (u.unify g v query c none parallel s).1 = .error e ↔
      ∃ b rest name, candidates s g v (c.fill s query) (c.fill s query).vars.length = b :: rest ∧
        b.names.find? c.fixes = some name ∧ e = .term (.constantRebind name.text) := by
  rw [unify_apply]
  cases candidates s g v (c.fill s query) (c.fill s query).vars.length with
  | nil =>
      constructor
      · rintro ⟨⟩
      · rintro ⟨b, rest, name, ⟨⟩, -⟩
  | cons b rest =>
      have hresult := b.apply_result ⟨s, c⟩
      rw [firstAccepted]
      simp only [attempt, bind_apply, get_apply]
      cases happly : b.apply ⟨s, c⟩ with
      | mk result scope =>
          rw [happly] at hresult
          cases hconflict : b.names.find? c.fixes with
          | none =>
              rw [hconflict] at hresult
              cases hresult
              constructor
              · rintro ⟨⟩
              · rintro ⟨b', rest', name, ⟨⟩, hname, -⟩
                cases hconflict.symm.trans hname
          | some name =>
              rw [hconflict] at hresult
              cases hresult
              constructor
              · rintro ⟨⟩
                exact ⟨b, rest, name, rfl, hconflict, rfl⟩
              · rintro ⟨b', rest', name', ⟨⟩, hname, rfl⟩
                cases hconflict.symm.trans hname
                rfl

end Unifier

/-- Once bound variables are replaced, constants are left only inside of values. -/
theorem Context.fixes_of_mem_fill {s : Store} {c : Context} {query : Literal}
    (hvalues : ∀ name t, c.value? s name = some t → ∀ x ∈ t.occurrences, c.fixes x.name = false)
    {x : Variable} (hx : x ∈ (c.fill s query).vars) : c.fixes x.name = false := by
  have hname := (Variable.mem_names_distinct _ _).1 (List.mem_map_of_mem hx)
  obtain ⟨z, hz, hzx⟩ := List.mem_map.1 hname
  rw [← hzx]
  rcases mem_fill_cases hz with ⟨-, hnone⟩ | ⟨y, -, t, ht, hz⟩
  · refine Bool.eq_false_of_not_eq_true fun hfixed => ?_
    have hbound := c.isSome_value?_of_fixes hfixed s
    rw [hnone] at hbound
    cases hbound
  · exact hvalues y.name t ht z hz

/--
Failing to match is an error in one case only: a match that binds all variables
binds a constant of the context that it is written to.  So a plan fails on no
event if its trigger has no constants, and a query without a guard fails in no
context whose values mention none of its constants.
-/
theorem fails_iff_match_binds_constant (p : Plan) (event : Literal) (w : World) (u : Unifier)
    (g : BeliefGraph) (v : ViewId) (query : Literal) (c : Context) (parallel : Bool) (s : Store) :
    ((∀ halt, (p.instantiate event w).1 = .error halt ↔
        ∃ b name, Match.bind w.store p.trigger.literal event = some b ∧
          b.size = p.trigger.literal.vars.length ∧ b.names.find? p.fixes = some name ∧
          halt = .failed (.term (.constantRebind name.text))) ∧
      ((∀ x ∈ p.trigger.literal.vars, p.fixes x.name = false) →
        ∃ found, (p.instantiate event w).1 = .ok found)) ∧
    (∀ e, (u.unify g v query c none parallel s).1 = .error e ↔
      ∃ b rest name,
        Unifier.candidates s g v (c.fill s query) (c.fill s query).vars.length = b :: rest ∧
        b.names.find? c.fixes = some name ∧ e = .term (.constantRebind name.text)) ∧
    ((∀ name t, c.value? s name = some t → ∀ x ∈ t.occurrences, c.fixes x.name = false) →
      ∃ found, (u.unify g v query c none parallel s).1 = .ok found) := by
  refine ⟨⟨p.instantiate_error_iff event w, fun hfree => ?_⟩,
    u.unify_error_iff g v query c parallel s, fun hvalues => ?_⟩
  · cases hresult : (p.instantiate event w).1 with
    | ok found => exact ⟨found, rfl⟩
    | error halt =>
        obtain ⟨b, name, hbind, -, hname, -⟩ := (p.instantiate_error_iff event w halt).1 hresult
        have hnone := BindingSet.find?_names_eq_none (Match.drawn_of_bind hbind).names_subset hfree
        cases hnone.symm.trans hname
  · cases hresult : (u.unify g v query c none parallel s).1 with
    | ok found => exact ⟨found, rfl⟩
    | error e =>
        obtain ⟨b, rest, name, hsets, hname, -⟩ :=
          (u.unify_error_iff g v query c parallel s e).1 hresult
        have hb : b ∈ Unifier.candidates s g v (c.fill s query) (c.fill s query).vars.length := by
          rw [hsets]
          exact List.mem_cons_self
        have hnone := BindingSet.find?_names_eq_none (Unifier.names_of_mem_candidates hb)
          fun x hx => Context.fixes_of_mem_fill hvalues hx
        cases hnone.symm.trans hname

/-- A plan with a constant beside its trigger, and a query with a constant for one argument. -/
theorem taken_beside_constants :
    let free (name : String) : Term := .var (.unbound ⟨[name]⟩)
    let g (t u : Term) : Literal := ⟨⟨.empty, "g"⟩, [t, u], [], false, false⟩
    let five : Term := .raw (.int 5)
    let event := g five (.raw (.int 6))
    let p := Plan.build .empty ⟨.addGoal, g (free "X") (free "Y")⟩ none
      [.assign ⟨["Z"]⟩ (.var ⟨["C"]⟩)] [.constant ⟨["C"]⟩ (.int 5)]
    let beliefs := BeliefGraph.rooted.setHeld BeliefGraph.root ⟨false, "g"⟩ [event]
    let c : Context := ⟨[⟨⟨["C"]⟩, .constant five⟩]⟩
    (∃ found, (p.instantiate event {}).1 = .ok found) ∧
      ∃ found, (Unifier.unify ⟨.crisp, none⟩ beliefs BeliefGraph.root
        (g (free "C") (free "Y")) c none false {}).1 = .ok found := by
  intro free g five event p beliefs c
  obtain ⟨⟨-, hplan⟩, -, hquery⟩ := fails_iff_match_binds_constant p event {} ⟨.crisp, none⟩ beliefs
    BeliefGraph.root (g (free "C") (free "Y")) c false {}
  refine ⟨hplan (by decide), hquery ?_⟩
  intro name t ht x hx
  by_cases hname : (⟨["C"]⟩ : Path) = name
  · subst hname
    cases ht
    cases hx
  · have hnone : c.value? {} name = none := by simp [c, Context.value?, Context.get?, hname]
    cases hnone.symm.trans ht

/--
A constant that an annotation declares for the variable of the trigger, a constant
in the trigger itself, and one that a bound variable of the query leads to: all
three end in an error, although a literal with another value in the place of the
constant does not match.
-/
theorem mismatch_with_constant_fails :
    let c : Variable := ⟨⟨["C"]⟩, .constant (.raw (.int 5))⟩
    let g (t : Term) : Literal := ⟨⟨.empty, "g"⟩, [t], [], false, false⟩
    let six := g (.raw (.int 6))
    let annotated := Plan.build .empty ⟨.addGoal, g (.var (.unbound ⟨["C"]⟩))⟩ none []
      [.constant ⟨["C"]⟩ (.int 5)]
    let fixed := Plan.build .empty ⟨.addGoal, g (.var c)⟩ none [] []
    let x : Variable := ⟨⟨["X"]⟩, .free (some (.var (.unbound ⟨["C"]⟩)))⟩
    let beliefs := BeliefGraph.rooted.setHeld BeliefGraph.root ⟨false, "g"⟩ [six]
    let conflict : TermError := .constantRebind "C"
    (annotated.instantiate six {}).1 = .error (.failed (.term conflict)) ∧
      (fixed.instantiate six {}).1 = .error (.failed (.term conflict)) ∧
      (Unifier.unify ⟨.crisp, none⟩ beliefs BeliefGraph.root (g (.var x)) ⟨[x, c]⟩ none false
        {}).1 = .error (.term conflict) :=
  ⟨rfl, rfl, rfl⟩

end Deliberation
