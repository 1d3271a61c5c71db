import Deliberation.Proofs.Matching.Interleaving

/-!
# What a committed unification keeps

The context that comes out of a unification is the one that went in, with the
variables left in the filled query bound as the accepted candidate has them.
Filling in the query once takes its bound variables away, but the values that are
put in may bring in others, and these are bound anew whether they had a value or
not.  So all that was bound is kept exactly when the candidate gives back what
such variables had, and always when no value that is put in mentions a bound
variable.
-/

namespace Deliberation

/-- What was bound is bound to the same term. -/
def Extends (before after : Path → Option Term) : Prop :=
  ∀ name t, before name = some t → after name = some t

/-- Bindings on top of others keep these exactly when they agree where both have a term. -/
theorem extends_iff_of_or {first before after : Path → Option Term}
    (hafter : ∀ name, after name = (first name).or (before name)) :
    Extends before after ↔ ∀ name t u, first name = some t → before name = some u → t = u := by
  constructor
  · intro h name t u ht hu
    have hkept := h name u hu
    rw [hafter, ht] at hkept
    exact Option.some.inj hkept
  · intro h name u hu
    rw [hafter]
    cases ht : first name with
    | none => exact hu
    | some t => exact congrArg some (h name t u ht hu)

namespace Context

variable {s : Store} {c : Context}

/-- Writing names changes the values of these names only, where each slot has one name. -/
theorem Wrote.value?_of_not_mem {pairs : List (Path × Term)} {after : Store}
    (h : c.Wrote s pairs after) (howns : c.Owns s) {name : Path}
    (hname : ∀ pair ∈ pairs, pair.1 ≠ name) : c.value? after name = c.value? s name := by
  unfold value?
  cases hx : c.get? name with
  | none => rfl
  | some x =>
      refine h.value?_eq fun pair hpair => Bool.eq_false_iff.2 fun hreaches => hname pair hpair ?_
      obtain ⟨y, hy, hshares⟩ := (Option.any_eq_true _ _).1 hreaches
      obtain ⟨i, hycell, hxcell⟩ := Variable.exists_slot_of_shares hshares
      exact howns.apart hy hx hycell hxcell

/-- What was written to slots leaves them where they are. -/
theorem Owns.of_wrote {pairs : List (Path × Term)} {after : Store} (howns : c.Owns s)
    (h : c.Wrote s pairs after) : c.Owns after where
  inside hx hcell := h.size.symm ▸ howns.inside hx hcell
  apart := howns.apart

end Context

namespace Unifier

section Attempts

variable {strategy : Strategy} {c : Context} {guard : Option Guard}

/-- A candidate is accepted with the context that it has been written to. -/
theorem apply_of_attempt {b : BindingSet} {s after : Store} {committed : Context}
    (h : attempt strategy c guard b s = (.ok (some committed), after)) :
    b.apply ⟨s, c⟩ = (.ok (), ⟨after, committed⟩) := by
  unfold attempt at h
  rw [bind_apply, get_apply] at h
  dsimp only at h
  cases happly : b.apply ⟨s, c⟩ with
  | mk result scope =>
      simp only [happly, bind_apply, set_apply] at h
      cases result with
      | error e => cases h
      | ok done =>
          cases guard with
          | none =>
              cases h
              rfl
          | some test =>
              dsimp only at h
              cases htest : test scope.store scope.context with
              | error e =>
                  rw [htest] at h
                  cases h
              | ok verdict =>
                  rw [htest] at h
                  by_cases haccepts : strategy.accepts verdict = true
                  · simp only [haccepts, if_true] at h
                    cases h
                    rfl
                  · simp only [haccepts] at h
                    cases h

/-- The accepted candidate is written to the context, in the store that those before it have
left. -/
theorem apply_of_firstAccepted {sets : List BindingSet} {s after : Store} {committed : Context}
    (h : firstAccepted strategy c guard sets s = (.ok (some committed), after)) :
    ∃ tried, ∃ b ∈ sets, ∃ middle, tried ⊆ sets ∧
      c.Wrote s (tried.flatMap BindingSet.pairs) middle ∧
      b.apply ⟨middle, c⟩ = (.ok (), ⟨after, committed⟩) := by
  induction sets generalizing s with
  | nil => cases h
  | cons b rest ih =>
      obtain ⟨written, -, hall, hwrote⟩ := wrote_of_attempt strategy c guard b s
      rw [firstAccepted, bind_apply] at h
      cases hattempt : attempt strategy c guard b s with
      | mk result middle =>
          rw [hattempt] at h hall hwrote
          cases result with
          | error e => cases h
          | ok outcome =>
              cases outcome with
              | some accepted =>
                  cases h
                  exact ⟨[], b, List.mem_cons_self, s, List.nil_subset _, Context.wrote_nil c s,
                    apply_of_attempt hattempt⟩
              | none =>
                  have hwritten : written = b.bindings := hall.resolve_left (by rintro ⟨_, ⟨⟩⟩)
                  subst hwritten
                  obtain ⟨tried, a, ha, last, hsubset, hrest, happly⟩ := ih h
                  exact ⟨b :: tried, a, List.mem_cons_of_mem _ ha, last,
                    List.cons_subset_cons _ hsubset, hwrote.append hrest, happly⟩

end Attempts

/-- A candidate binds each of the variables of the query once. -/
theorem isSome_get?_of_mem_candidates {s : Store} {g : BeliefGraph} {v : ViewId} {query : Literal}
    {b : BindingSet} (hb : b ∈ candidates s g v query query.vars.length) :
    b.names.Nodup ∧ ∀ name, (b.get? name).isSome ↔ ∃ x ∈ query.occurrences, x.name = name := by
  obtain ⟨l, -, hbind⟩ := exists_bind_of_mem_candidates hb
  have hdrawn := Match.drawn_of_bind hbind
  have hsize : b.size = query.vars.length := of_decide_eq_true (List.mem_filter.1 hb).2
  refine ⟨hdrawn.nodup, fun name => ⟨?_, ?_⟩⟩
  · intro hname
    obtain ⟨t, ht⟩ := Option.isSome_iff_exists.1 hname
    exact hdrawn.named ht
  · rintro ⟨x, hx, rfl⟩
    exact hdrawn.isSome_get? hsize hx

/--
The context that a unification commits to has the variables left in the filled
query bound as some candidate has them, and all others as before.  So what was
bound is kept exactly when the candidate agrees with it on these variables; in
particular when no value that is put into the query mentions a bound variable.
-/
theorem unify_extends_iff {u : Unifier} {g : BeliefGraph} {v : ViewId} {query : Literal}
    {c committed : Context} {guard : Option Guard} {parallel : Bool} {s after : Store}
    (howns : c.Owns s) (happart : u.WorkersApart query c parallel s)
    (h : u.Ends g v query c guard parallel s (.ok (some committed), after)) :
    ∃ b ∈ candidates s g v (c.fill s query) (c.fill s query).vars.length,
      (∀ name, (b.get? name).isSome ↔ ∃ x ∈ (c.fill s query).occurrences, x.name = name) ∧
      (∀ name, committed.value? after name = (b.get? name).or (c.value? s name)) ∧
      (Extends (c.value? s) (committed.value? after) ↔
        ∀ name t u, b.get? name = some t → c.value? s name = some u → t = u) ∧
      ((∀ x ∈ query.occurrences, ∀ t, c.value? s x.name = some t →
          ∀ y ∈ t.occurrences, c.value? s y.name = none) →
        Extends (c.value? s) (committed.value? after)) := by
  replace h := (h.eq_unify happart).symm
  rw [unify_apply] at h
  obtain ⟨tried, b, hb, middle, hsubset, hwrote, happly⟩ := apply_of_firstAccepted h
  obtain ⟨hnodup, hnames⟩ := isSome_get?_of_mem_candidates hb
  have hwritten := BindingSet.written_of_apply (howns.of_wrote hwrote) hnodup happly
  have hvalue : ∀ name, committed.value? after name = (b.get? name).or (c.value? s name) := by
    intro name
    rw [hwritten.value name]
    cases hbound : b.get? name with
    | some t => rfl
    | none =>
        -- a name that this candidate does not bind is bound by none of those before it
        refine hwrote.value?_of_not_mem howns fun pair hpair hname => ?_
        obtain ⟨a, ha, hpair⟩ := List.mem_flatMap.1 hpair
        obtain ⟨binding, hbinding, rfl⟩ := List.mem_map.1 hpair
        have hsome := (isSome_get?_of_mem_candidates (hsubset ha)).2 name
        rw [BindingSet.get?_isSome_iff, ← hnames name, hbound] at hsome
        exact absurd (hsome.1 (hname ▸ List.mem_map_of_mem hbinding)) Bool.false_ne_true
  have hextends : Extends (c.value? s) (committed.value? after) ↔
      ∀ name t u, b.get? name = some t → c.value? s name = some u → t = u :=
    extends_iff_of_or hvalue
  refine ⟨b, hb, hnames, hvalue, hextends, fun hfree => hextends.2 ?_⟩
  intro name t u ht hu
  obtain ⟨x, hx, rfl⟩ := (hnames name).1 (Option.isSome_iff_exists.2 ⟨t, ht⟩)
  rcases Context.mem_fill_cases hx with ⟨-, hnone⟩ | ⟨y, hy, v, hv, hx⟩
  · rw [hnone] at hu
    cases hu
  · rw [hfree y hy v hv x hx] at hu
    cases hu

/-- A value with an unbound variable is put into the query, and the variables beside it keep
theirs. -/
theorem unify_extends_beside_open_value :
    let f (name : String) (arguments : List Term) : Literal :=
      ⟨⟨.empty, name⟩, arguments, [], false, false⟩
    let x (name : String) : Term := .var (.unbound ⟨[name]⟩)
    let g := BeliefGraph.rooted.setHeld BeliefGraph.root ⟨false, "f"⟩
      [f "f" [.lit (f "g" [.raw (.int 1)]), .raw (.int 3)]]
    let c : Context :=
      ⟨[⟨⟨["X"]⟩, .free (some (.lit (f "g" [x "Y"])))⟩, ⟨⟨["Z"]⟩, .free (some (.raw (.int 3)))⟩]⟩
    ∃ committed after,
      unify ⟨.crisp, none⟩ g BeliefGraph.root (f "f" [x "X", x "Z"]) c none false .empty =
          (.ok (some committed), after) ∧
        Extends (c.value? .empty) (committed.value? after) ∧
        committed.value? after ⟨["Y"]⟩ = some (.raw (.int 1)) := by
  intro f x g c
  have howns : c.Owns .empty := Context.owns_of_vars (by
    intro y hy i
    rcases List.mem_cons.1 hy with rfl | hy
    · exact nofun
    · rw [List.mem_singleton.1 hy]
      exact nofun)
  obtain ⟨committed, after, hunify, hy⟩ : ∃ committed after,
      unify ⟨.crisp, none⟩ g BeliefGraph.root (f "f" [x "X", x "Z"]) c none false .empty =
          (.ok (some committed), after) ∧
        committed.value? after ⟨["Y"]⟩ = some (.raw (.int 1)) := ⟨_, _, rfl, rfl⟩
  have hends : Ends ⟨.crisp, none⟩ g BeliefGraph.root (f "f" [x "X", x "Z"]) c none false .empty
      (.ok (some committed), after) := hunify ▸ .inTurn rfl
  have happart : WorkersApart ⟨.crisp, none⟩ (f "f" [x "X", x "Z"]) c false .empty := nofun
  obtain ⟨b, -, -, -, -, hkept⟩ := unify_extends_iff howns happart hends
  refine ⟨committed, after, hunify, hkept ?_, hy⟩
  intro y hy t ht z hz
  rcases List.mem_cons.1 hy with rfl | hy
  · cases ht
    rw [List.mem_singleton.1 hz]
    rfl
  · rw [List.mem_singleton.1 hy] at ht
    cases ht
    cases hz

/-- A variable that comes in with a value is bound anew although it had a value. -/
theorem unify_binds_bound_anew :
    let f (t : Term) : Literal := ⟨⟨.empty, "f"⟩, [t], [], false, false⟩
    let x (name : String) : Term := .var (.unbound ⟨[name]⟩)
    let g := BeliefGraph.rooted.setHeld BeliefGraph.root ⟨false, "f"⟩ [f (.raw (.int 6))]
    let c : Context :=
      ⟨[⟨⟨["X"]⟩, .free (some (x "Y"))⟩, ⟨⟨["Y"]⟩, .free (some (.raw (.int 5)))⟩]⟩
    ∃ committed after,
      unify ⟨.crisp, none⟩ g BeliefGraph.root (f (x "X")) c none false .empty =
          (.ok (some committed), after) ∧
        c.value? .empty ⟨["Y"]⟩ = some (.raw (.int 5)) ∧
        committed.value? after ⟨["Y"]⟩ = some (.raw (.int 6)) :=
  ⟨_, _, rfl, rfl, rfl⟩

end Unifier

end Deliberation
