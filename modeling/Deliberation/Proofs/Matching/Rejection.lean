import Deliberation.Matching.Unifier
import Deliberation.Proofs.Matching.Binding

/-!
# What rejected candidates leave behind

Each candidate of a unification is tried on a copy of the context.  The copies
share the slots of mutex variables with the context that they are made of, and a
rejected copy is dropped without taking back what was written to them.  So the
variables of the caller are after a unification what the last write to their
slots has made of them, whether a candidate was accepted or not.  The names that
are written are variables which filling in the query has left in it.
-/

namespace Deliberation

/-! ## Writing to slots -/

/-- Binding a variable is seen by those that share its slot. -/
theorem Variable.value?_of_set {s after : Store} {x y z : Variable} {t : Term}
    (h : x.set s t = .ok (after, y)) (hz : ∀ i, z.cell = .mutex i → i < s.slots.size) :
    z.value? after = if x.shares z then some t else z.value? s := by
  obtain ⟨name, cell⟩ := x
  obtain ⟨other, content⟩ := z
  cases cell with
  | free value => cases h; rfl
  | constant value => cases h
  | relocate target value => cases h; rfl
  | mutex slot =>
      cases h
      cases content with
      | free value => rfl
      | constant value => rfl
      | relocate target value => rfl
      | mutex i =>
          change (s.writeSlot slot t).readSlot i = if slot == i then some t else s.readSlot i
          by_cases hslot : slot = i
          · subst hslot
            rw [Store.readSlot_writeSlot (hz slot rfl), if_pos rfl, if_pos (beq_self_eq_true _)]
          · rw [Store.readSlot_writeSlot_of_ne t hslot, if_neg (by simpa using hslot)]

theorem Variable.size_of_set {s after : Store} {x y : Variable} {t : Term}
    (h : x.set s t = .ok (after, y)) : after.slots.size = s.slots.size := by
  obtain ⟨name, cell⟩ := x
  cases cell <;> cases h <;> simp [Store.writeSlot]

theorem Variable.shares_of_set {s after : Store} {x y : Variable} {t : Term}
    (h : x.set s t = .ok (after, y)) (z : Variable) : y.shares z = x.shares z := by
  obtain ⟨name, cell⟩ := x
  cases cell <;> cases h <;> rfl

namespace Context

/-- Whether a name stands in a context for a variable that has the slot of another one. -/
def reachesSlot (c : Context) (x : Variable) (name : Path) : Bool :=
  (c.get? name).any (·.shares x)

theorem reachesSlot_of_not_isMutex {c : Context} {x : Variable} (hx : ¬ x.isMutex = true)
    (name : Path) : c.reachesSlot x name = false := by
  have hshares : ∀ y : Variable, y.shares x = false := by
    intro y
    refine Bool.eq_false_iff.2 fun h => hx ?_
    obtain ⟨i, -, hcell⟩ := Variable.exists_slot_of_shares h
    simp [Variable.isMutex, Variable.kind, hcell, Cell.kind]
  unfold reachesSlot
  cases c.get? name with
  | none => rfl
  | some y => exact hshares y

/-- The last of the terms that are written to the slot of a variable. -/
def lastWritten (c : Context) (x : Variable) (pairs : List (Path × Term)) : Option Term :=
  pairs.reverse.findSome? fun pair => if c.reachesSlot x pair.1 then some pair.2 else none

section LastWritten

variable {c : Context} {x : Variable}

theorem lastWritten_append (first second : List (Path × Term)) :
    c.lastWritten x (first ++ second) = (c.lastWritten x second).or (c.lastWritten x first) := by
  unfold lastWritten
  rw [List.reverse_append, List.findSome?_append]

theorem lastWritten_singleton (name : Path) (t : Term) :
    c.lastWritten x [(name, t)] = if c.reachesSlot x name then some t else none := by
  simp [lastWritten]

theorem lastWritten_eq_none {pairs : List (Path × Term)}
    (h : ∀ pair ∈ pairs, c.reachesSlot x pair.1 = false) : c.lastWritten x pairs = none := by
  rw [lastWritten, List.findSome?_eq_none_iff]
  intro pair hpair
  rw [h pair (List.mem_reverse.1 hpair)]
  rfl

/-- Which variables lead to a slot is all that counts in a context. -/
theorem lastWritten_congr {d : Context} (h : ∀ name, d.reachesSlot x name = c.reachesSlot x name) :
    d.lastWritten x = c.lastWritten x := by
  funext pairs
  simp only [lastWritten, h]

end LastWritten

/-- What operations on copies of a context have made of a store by writing pairs. -/
structure Wrote (c : Context) (s : Store) (pairs : List (Path × Term)) (after : Store) : Prop where
  size : after.slots.size = s.slots.size
  value : ∀ x : Variable, (∀ i, x.cell = .mutex i → i < s.slots.size) →
    x.value? after = (c.lastWritten x pairs).or (x.value? s)

theorem wrote_nil (c : Context) (s : Store) : c.Wrote s [] s := ⟨rfl, fun _ _ => rfl⟩

theorem Wrote.append {c : Context} {s middle after : Store} {first second : List (Path × Term)}
    (hfirst : c.Wrote s first middle) (hsecond : c.Wrote middle second after) :
    c.Wrote s (first ++ second) after where
  size := hsecond.size.trans hfirst.size
  value x hx := by
    rw [hsecond.value x fun i hi => Nat.lt_of_lt_of_eq (hx i hi) hfirst.size.symm,
      hfirst.value x hx, lastWritten_append, Option.or_assoc]

/-- A variable that no written name leads to keeps its value, also without a slot of the store. -/
theorem Wrote.value?_eq {c : Context} {s after : Store} {pairs : List (Path × Term)}
    (h : c.Wrote s pairs after) {x : Variable}
    (hx : ∀ pair ∈ pairs, c.reachesSlot x pair.1 = false) : x.value? after = x.value? s := by
  by_cases hslot : ∀ i, x.cell = .mutex i → i < s.slots.size
  · rw [h.value x hslot, lastWritten_eq_none hx]
    rfl
  · obtain ⟨i, hi⟩ := Classical.not_forall.1 hslot
    obtain ⟨hcell, hout⟩ := Classical.not_imp.1 hi
    have hout' : after.slots.size ≤ i := h.size ▸ Nat.le_of_not_lt hout
    simp only [Variable.value?, hcell, Store.readSlot_of_size_le hout',
      Store.readSlot_of_size_le (Nat.le_of_not_lt hout)]

/-- Binding a name writes to the slot of its variable; the slots of the variables stay. -/
theorem wrote_of_bindIn {scope after : Scope} {name : Path} {t : Term}
    (h : bindIn scope name t = .ok after) :
    scope.context.Wrote scope.store [(name, t)] after.store ∧
      ∀ x other, after.context.reachesSlot x other = scope.context.reachesSlot x other := by
  cases hx : scope.context.get? name with
  | none =>
      simp only [bindIn, hx] at h
      cases h
      refine ⟨⟨rfl, fun x _ => ?_⟩, fun x other => ?_⟩
      · rw [lastWritten_singleton, reachesSlot, hx]
        rfl
      · rw [reachesSlot, get?_insert]
        split
        · next hname => rw [reachesSlot, ← hname, hx]; rfl
        · rfl
  | some y =>
      cases hset : y.set scope.store t with
      | error e =>
          simp only [bindIn, hx, hset] at h
          cases h
      | ok filled =>
          obtain ⟨store, filled⟩ := filled
          simp only [bindIn, hx, hset] at h
          cases h
          refine ⟨⟨Variable.size_of_set hset, fun x hslot => ?_⟩, fun x other => ?_⟩
          · rw [lastWritten_singleton, reachesSlot, hx, Option.any_some,
              Variable.value?_of_set hset hslot]
            split <;> rfl
          · have hname : filled.name = name := (Variable.name_of_set hset).trans (name_of_get? hx)
            rw [reachesSlot, get?_insert]
            split
            · next hother =>
                rw [reachesSlot, ← hother, hname, hx]
                exact Variable.shares_of_set hset x
            · rfl

end Context

/-! ## Attempts -/

open Context in
/-- Writing a binding set ends behind all of its bindings, or before one that is refused. -/
theorem BindingSet.wrote_of_apply (bindings : List Binding) (scope : Scope) :
    ∃ written, written <+: bindings ∧
      (((BindingSet.mk bindings).apply scope).1 = .ok () → written = bindings) ∧
      scope.context.Wrote scope.store (BindingSet.mk written).pairs
        ((BindingSet.mk bindings).apply scope).2.store := by
  induction bindings generalizing scope with
  | nil => exact ⟨[], List.nil_prefix, fun _ => rfl, wrote_nil _ _⟩
  | cons binding rest ih =>
      rw [apply_cons]
      cases hbind : bindIn scope binding.name binding.value with
      | error e => exact ⟨[], List.nil_prefix, fun h => (nomatch h), wrote_nil _ _⟩
      | ok middle =>
          obtain ⟨hfirst, hsame⟩ := wrote_of_bindIn hbind
          obtain ⟨written, hprefix, hall, hrest⟩ := ih middle
          have hrest' : scope.context.Wrote middle.store (BindingSet.mk written).pairs
              ((BindingSet.mk rest).apply middle).2.store :=
            ⟨hrest.size, fun x hx => by
              rw [hrest.value x hx, lastWritten_congr fun name => hsame x name]⟩
          exact ⟨binding :: written, (List.prefix_cons_inj _).2 hprefix,
            fun h => congrArg _ (hall h), hfirst.append hrest'⟩

namespace Unifier

/--
Which bindings are written until a result is there: those of all candidates when
each is rejected, those up to the accepted candidate, or those up to an error,
which may leave a candidate half written.
-/
inductive Tries : Except ExecutionError (Option Context) → List BindingSet → List BindingSet → Prop
  | rejected (sets : List BindingSet) : Tries (.ok none) sets sets
  | accepted (tried : List BindingSet) (b : BindingSet) (rest : List BindingSet)
      (committed : Context) : Tries (.ok (some committed)) (tried ++ b :: rest) (tried ++ [b])
  | stopped (tried : List BindingSet) (b : BindingSet) (rest : List BindingSet)
      (e : ExecutionError) (written : List Binding) (hwritten : written <+: b.bindings) :
      Tries (.error e) (tried ++ b :: rest) (tried ++ [⟨written⟩])

theorem Tries.cons {result : Except ExecutionError (Option Context)} {sets tried : List BindingSet}
    (h : Tries result sets tried) (b : BindingSet) : Tries result (b :: sets) (b :: tried) := by
  cases h with
  | rejected => exact .rejected _
  | accepted tried accepted rest committed => exact .accepted (b :: tried) accepted rest committed
  | stopped tried last rest e written hwritten =>
      exact .stopped (b :: tried) last rest e written hwritten

theorem Tries.subset {result : Except ExecutionError (Option Context)}
    {sets tried : List BindingSet} (h : Tries result sets tried) {b : BindingSet}
    (hb : b ∈ tried) : ∃ a ∈ sets, b.names ⊆ a.names := by
  cases h with
  | rejected => exact ⟨b, hb, List.Subset.refl _⟩
  | accepted tried accepted rest committed =>
      refine ⟨b, ?_, List.Subset.refl _⟩
      rcases List.mem_append.1 hb with hb | hb
      · exact List.mem_append_left _ hb
      · exact List.mem_append_right _ (List.mem_singleton.1 hb ▸ List.mem_cons_self)
  | stopped tried last rest e written hwritten =>
      rcases List.mem_append.1 hb with hb | hb
      · exact ⟨b, List.mem_append_left _ hb, List.Subset.refl _⟩
      · refine ⟨last, List.mem_append_right _ List.mem_cons_self, ?_⟩
        rw [List.mem_singleton.1 hb]
        exact List.map_subset _ hwritten.subset

section Attempts

variable (strategy : Strategy) (c : Context) (guard : Option Guard)

/-- The result of one attempt, and what it has written. -/
theorem wrote_of_attempt (b : BindingSet) (s : Store) :
    ∃ written, written <+: b.bindings ∧
      ((∃ e, (attempt strategy c guard b s).1 = .error e) ∨ written = b.bindings) ∧
      c.Wrote s (BindingSet.mk written).pairs (attempt strategy c guard b s).2 := by
  obtain ⟨written, hprefix, hall, hwrote⟩ := BindingSet.wrote_of_apply b.bindings ⟨s, c⟩
  refine ⟨written, hprefix, ?_⟩
  unfold attempt
  cases happly : b.apply ⟨s, c⟩ with
  | mk result scope =>
      rw [happly] at hall hwrote
      simp only [bind_apply, get_apply, set_apply, happly]
      cases result with
      | error e => exact ⟨.inl ⟨_, rfl⟩, hwrote⟩
      | ok done =>
          cases guard with
          | none => exact ⟨.inr (hall rfl), hwrote⟩
          | some test =>
              dsimp only
              cases test scope.store scope.context with
              | error e => exact ⟨.inl ⟨_, rfl⟩, hwrote⟩
              | ok verdict => exact ⟨.inr (hall rfl), hwrote⟩

/-- The candidates are tried one after the other, and each starts where the last one ended. -/
theorem wrote_of_firstAccepted (sets : List BindingSet) (s : Store) :
    ∃ tried, Tries (firstAccepted strategy c guard sets s).1 sets tried ∧
      c.Wrote s (tried.flatMap BindingSet.pairs) (firstAccepted strategy c guard sets s).2 := by
  induction sets generalizing s with
  | nil => exact ⟨[], .rejected [], Context.wrote_nil c s⟩
  | cons b rest ih =>
      obtain ⟨written, hprefix, hall, hwrote⟩ := wrote_of_attempt strategy c guard b s
      rw [firstAccepted, bind_apply]
      cases hattempt : attempt strategy c guard b s with
      | mk result middle =>
          rw [hattempt] at hall hwrote
          cases result with
          | error e =>
              refine ⟨[⟨written⟩], .stopped [] b rest e written hprefix, ?_⟩
              rw [List.flatMap_singleton]
              exact hwrote
          | ok outcome =>
              have hwritten : written = b.bindings := hall.resolve_left fun ⟨_, h⟩ => nomatch h
              subst hwritten
              cases outcome with
              | some committed =>
                  refine ⟨[b], .accepted [] b rest committed, ?_⟩
                  rw [List.flatMap_singleton]
                  exact hwrote
              | none =>
                  obtain ⟨tried, htries, hrest⟩ := ih middle
                  exact ⟨b :: tried, htries.cons b, hwrote.append hrest⟩

end Attempts

/-- A candidate comes from a belief that matches. -/
theorem exists_bind_of_mem_candidates {s : Store} {g : BeliefGraph} {v : ViewId} {query : Literal}
    {required : Nat} {b : BindingSet} (hb : b ∈ candidates s g v query required) :
    ∃ l ∈ g.matching v query.negated query.functor.path, Match.bind s query l = some b := by
  have hb := List.mem_of_mem_filter hb
  split at hb
  · next hexact =>
      -- structural matches count when no belief has an exact one
      obtain ⟨l, hl, hbind⟩ := List.mem_filterMap.1 hb
      have hnone := List.filterMap_eq_nil_iff.1 (List.isEmpty_iff.1 hexact) l hl
      exact ⟨l, hl, by rw [Match.bind, hnone]; exact hbind⟩
  · obtain ⟨l, hl, hbind⟩ := List.mem_filterMap.1 hb
    exact ⟨l, hl, by rw [Match.bind, hbind]⟩

theorem names_of_mem_candidates {s : Store} {g : BeliefGraph} {v : ViewId} {query : Literal}
    {required : Nat} {b : BindingSet} (hb : b ∈ candidates s g v query required) :
    b.names ⊆ query.vars.map Variable.name := by
  obtain ⟨l, -, hbind⟩ := exists_bind_of_mem_candidates hb
  exact (Match.drawn_of_bind hbind).names_subset

/--
What a unification leaves of the caller's variables, whatever its result is: a
variable holds the last term that a tried candidate wrote to its slot, and else
what it held before.  Hence a variable keeps its value if none of the variables
left in the filled query leads to its slot, and so do all but mutex variables.
-/
theorem unify_writes_through_slots (u : Unifier) (g : BeliefGraph) (v : ViewId) (query : Literal)
    (c : Context) (guard : Option Guard) (s : Store) :
    ∃ tried,
      Tries (u.unify g v query c guard false s).1
          (candidates s g v (c.fill s query) (c.fill s query).vars.length) tried ∧
        (∀ x ∈ c.vars, (∀ i, x.cell = .mutex i → i < s.slots.size) →
          x.value? (u.unify g v query c guard false s).2 =
            (c.lastWritten x (tried.flatMap BindingSet.pairs)).or (x.value? s)) ∧
        ∀ x ∈ c.vars, (x.isMutex = true →
            ∀ y ∈ (c.fill s query).vars, c.reachesSlot x y.name = false) →
          x.value? (u.unify g v query c guard false s).2 = x.value? s := by
  have hunify : u.unify g v query c guard false s = firstAccepted u.strategy c guard
      (candidates s g v (c.fill s query) (c.fill s query).vars.length) s := rfl
  rw [hunify]
  obtain ⟨tried, htries, hwrote⟩ := wrote_of_firstAccepted u.strategy c guard
    (candidates s g v (c.fill s query) (c.fill s query).vars.length) s
  refine ⟨tried, htries, fun x _ => hwrote.value x, fun x _ hfree => hwrote.value?_eq ?_⟩
  intro pair hpair
  by_cases hmutex : x.isMutex = true
  · obtain ⟨b, hb, hpair⟩ := List.mem_flatMap.1 hpair
    obtain ⟨binding, hbinding, rfl⟩ := List.mem_map.1 hpair
    obtain ⟨a, ha, hsubset⟩ := htries.subset hb
    obtain ⟨y, hy, hname⟩ := List.mem_map.1
      (names_of_mem_candidates ha (hsubset (List.mem_map_of_mem hbinding)))
    rw [← hname]
    exact hfree hmutex y hy
  · exact Context.reachesSlot_of_not_isMutex hmutex pair.1

/-- A candidate that the guard rejects has bound the variable of the query. -/
theorem unify_rejected_binds_mutex :
    let f (t : Term) : Literal := ⟨⟨.empty, "f"⟩, [t], [], false, false⟩
    let g := BeliefGraph.rooted.setHeld BeliefGraph.root ⟨false, "f"⟩ [f (.raw (.int 1))]
    let m : Variable := ⟨⟨["M"]⟩, .mutex 0⟩
    let s : Store := { slots := #[none] }
    let guard : Guard := fun _ _ => .ok (.certain false)
    ∃ after,
      unify ⟨.crisp, none⟩ g BeliefGraph.root (f (.var m)) ⟨[m]⟩ (some guard) false s =
          (.ok none, after) ∧
        m.value? s = none ∧ m.value? after = some (.raw (.int 1)) :=
  ⟨_, rfl, rfl, rfl⟩

end Unifier

end Deliberation
