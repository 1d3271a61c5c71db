import Deliberation.Matching.Binding
import Deliberation.Proofs.Effect
import Deliberation.Proofs.Matching.Pairing

/-!
# Binding variables

Where no two mutex variables of a context share a slot, binding a name changes
what is bound to this name and to no other.  Only a constant refuses to be
bound, and it is never unbound; so binding an unbound name succeeds.
-/

namespace Deliberation

theorem Variable.name_of_set {s after : Store} {x y : Variable} {t : Term}
    (h : x.set s t = .ok (after, y)) : y.name = x.name := by
  obtain ⟨name, cell⟩ := x
  cases cell <;> cases h <;> rfl

/-- What binding a variable has done: it has the term, and variables with other slots keep
theirs. -/
structure Variable.Filled (s : Store) (x : Variable) (t : Term) (after : Store) (y : Variable) :
    Prop where
  value : y.value? after = some t
  slot : ∀ i, y.cell = .mutex i → x.cell = .mutex i
  size : after.slots.size = s.slots.size
  others : ∀ z : Variable, x.shares z = false → z.value? after = z.value? s

theorem Variable.filled_of_set {s after : Store} {x y : Variable} {t : Term}
    (hslot : ∀ i, x.cell = .mutex i → i < s.slots.size) (h : x.set s t = .ok (after, y)) :
    x.Filled s t after y := by
  obtain ⟨name, cell⟩ := x
  cases cell with
  | free value =>
      cases h
      refine ⟨rfl, ?_, rfl, fun _ _ => rfl⟩
      rintro i ⟨⟩
  | constant value => cases h
  | mutex slot =>
      cases h
      have hread := Store.readSlot_writeSlot (hslot slot rfl) t
      refine ⟨(hread slot).trans (if_pos rfl), fun _ hi => hi, Array.size_setIfInBounds .., ?_⟩
      rintro ⟨other, cell⟩ hshares
      cases cell with
      | free value => rfl
      | constant value => rfl
      | relocate target value => rfl
      | mutex i => exact (hread i).trans (if_neg (beq_eq_false_iff_ne.1 hshares))
  | relocate target value =>
      cases h
      refine ⟨rfl, ?_, rfl, fun _ _ => rfl⟩
      rintro i ⟨⟩

theorem Variable.exists_set_of_unbound {s : Store} {x : Variable} (hfree : x.value? s = none)
    (t : Term) : ∃ after y, x.set s t = .ok (after, y) := by
  obtain ⟨name, cell⟩ := x
  cases cell with
  | free value => exact ⟨_, _, rfl⟩
  | constant value => cases hfree
  | mutex slot => exact ⟨_, _, rfl⟩
  | relocate target value => exact ⟨_, _, rfl⟩

theorem Variable.exists_slot_of_shares {x y : Variable} (h : x.shares y = true) :
    ∃ i, x.cell = .mutex i ∧ y.cell = .mutex i := by
  unfold Variable.shares at h
  split at h
  · next i j hx hy => exact ⟨i, hx, hy.trans (congrArg Cell.mutex (beq_iff_eq.1 h).symm)⟩
  · cases h

namespace Context

/-- The mutex variables of a context have slots of the store, each one of its own. -/
structure Owns (s : Store) (c : Context) : Prop where
  inside : ∀ {name x i}, c.get? name = some x → x.cell = .mutex i → i < s.slots.size
  apart : ∀ {first second x y i}, c.get? first = some x → c.get? second = some y →
    x.cell = .mutex i → y.cell = .mutex i → first = second

theorem owns_empty (s : Store) : empty.Owns s where
  inside h := by cases h
  apart h := by cases h

theorem owns_of_vars {s : Store} {c : Context} (h : ∀ x ∈ c.vars, ∀ i, x.cell ≠ .mutex i) :
    c.Owns s where
  inside hx hcell := absurd hcell (h _ (List.mem_of_find?_eq_some hx) _)
  apart hx _ hcell := absurd hcell (h _ (List.mem_of_find?_eq_some hx) _)

section Insert

variable {s after : Store} {c : Context} {x : Variable}

/-- A variable comes into a context with a slot that belongs to no variable of another name. -/
theorem Owns.insert (howns : c.Owns s) (hsize : s.slots.size ≤ after.slots.size)
    (hinside : ∀ i, x.cell = .mutex i → i < after.slots.size)
    (hown : ∀ i name y, x.cell = .mutex i → c.get? name = some y → y.cell = .mutex i →
      x.name = name) : (c.insert x).Owns after where
  inside {name y i} hy hcell := by
    rw [get?_insert] at hy
    split at hy
    · cases hy
      exact hinside i hcell
    · exact Nat.lt_of_lt_of_le (howns.inside hy hcell) hsize
  apart {first second y z i} hy hz hycell hzcell := by
    rw [get?_insert] at hy hz
    split at hy <;> split at hz
    · next hfirst hsecond => exact hfirst.symm.trans hsecond
    · next hfirst hsecond =>
        cases hy
        exact absurd (hown i second z hycell hz hzcell) hsecond
    · next hfirst hsecond =>
        cases hz
        exact absurd (hown i first y hzcell hy hycell) hfirst
    · exact howns.apart hy hz hycell hzcell

/-- An unbound copy brings a new slot or none. -/
theorem Owns.insert_unboundCopy (howns : c.Owns s) (x : Variable) :
    (c.insert (x.unboundCopy s).1).Owns (x.unboundCopy s).2 := by
  unfold Variable.unboundCopy
  cases hcell : x.cell with
  | free value =>
      refine howns.insert (Nat.le_refl _) ?_ ?_
      · rintro i ⟨⟩
      · rintro i name y ⟨⟩
  | constant value =>
      refine howns.insert (Nat.le_refl _) ?_ ?_
      · intro i hi
        cases hcell.symm.trans hi
      · intro i name y hi
        cases hcell.symm.trans hi
  | mutex slot =>
      have hsize : (s.allocSlot none).1.slots.size = s.slots.size + 1 := Array.size_push ..
      refine howns.insert (Nat.le_of_lt (Nat.lt_of_lt_of_eq (Nat.lt_succ_self _) hsize.symm)) ?_ ?_
      · rintro i ⟨⟩
        exact Nat.lt_of_lt_of_eq (Nat.lt_succ_self _) hsize.symm
      · rintro i name y ⟨⟩ hy hslot
        exact absurd (howns.inside hy hslot) (Nat.lt_irrefl _)
  | relocate target value =>
      refine howns.insert (Nat.le_refl _) ?_ ?_
      · rintro i ⟨⟩
      · rintro i name y ⟨⟩

/-- A new context gets an unbound copy of one variable after the other. -/
theorem ofVariables_induction {motive : Context → Store → Prop} {s : Store}
    (hempty : motive empty s)
    (hinsert : ∀ c s (x : Variable), motive c s →
      motive (c.insert (x.unboundCopy s).1) (x.unboundCopy s).2)
    (vars : List Variable) : motive (ofVariables vars s).1 (ofVariables vars s).2 := by
  unfold ofVariables
  generalize empty = c at hempty ⊢
  induction vars generalizing c s with
  | nil => exact hempty
  | cons x rest ih =>
      rw [List.foldlM_cons]
      by_cases hknown : c.contains x.name
      · rw [if_pos hknown]
        exact ih c hempty
      · rw [if_neg hknown]
        exact ih _ (hinsert c s x hempty)

/-- A context made of unbound copies owns its slots. -/
theorem owns_ofVariables (vars : List Variable) (s : Store) :
    (ofVariables vars s).1.Owns (ofVariables vars s).2 :=
  ofVariables_induction (motive := fun c s => c.Owns s) (owns_empty s)
    (fun _ _ x hc => hc.insert_unboundCopy x) vars

end Insert

/-! ## One name -/

/-- What binding a name has done: it is bound to the term, and all other names as before. -/
structure Bound (before : Scope) (name : Path) (t : Term) (after : Scope) : Prop where
  owns : after.context.Owns after.store
  value : ∀ other, after.context.value? after.store other =
    if name = other then some t else before.context.value? before.store other

variable {s after : Store} {c : Context} {name : Path} {t : Term}

theorem name_of_get? {x : Variable} (h : c.get? name = some x) : x.name = name := by
  unfold get? at h
  have hfound := List.find?_some h
  exact of_decide_eq_true hfound

/-- Binding a name leaves the variables with other names as they are. -/
theorem get?_of_bindIn {scope after : Scope} {other : Path}
    (h : bindIn scope name t = .ok after) (hother : name ≠ other) :
    after.context.get? other = scope.context.get? other := by
  cases hx : scope.context.get? name with
  | none =>
      simp only [bindIn, hx] at h
      cases h
      exact (get?_insert _ _ _).trans (if_neg hother)
  | some x =>
      cases hset : x.set scope.store t with
      | error e =>
          simp only [bindIn, hx, hset] at h
          cases h
      | ok filled =>
          obtain ⟨store, y⟩ := filled
          simp only [bindIn, hx, hset] at h
          cases h
          have hname : y.name = name := (Variable.name_of_set hset).trans (name_of_get? hx)
          exact (get?_insert _ _ _).trans (if_neg (hname ▸ hother))

theorem bound_insert {x : Variable} (howns : (c.insert x).Owns after) (hname : x.name = name)
    (hvalue : x.value? after = some t)
    (hothers : ∀ other y, name ≠ other → c.get? other = some y → y.value? after = y.value? s) :
    Bound ⟨s, c⟩ name t ⟨after, c.insert x⟩ where
  owns := howns
  value other := by
    dsimp only
    rw [value?, get?_insert, hname]
    by_cases hother : name = other
    · rw [if_pos hother, if_pos hother]
      exact hvalue
    · rw [if_neg hother, if_neg hother, value?]
      cases hy : c.get? other with
      | none => rfl
      | some y => exact hothers other y hother hy

theorem bound_of_bindIn (howns : c.Owns s) {after : Scope}
    (h : bindIn ⟨s, c⟩ name t = .ok after) : Bound ⟨s, c⟩ name t after := by
  cases hx : c.get? name with
  | none =>
      simp only [bindIn, hx] at h
      cases h
      refine bound_insert ?_ rfl rfl fun _ _ _ _ => rfl
      refine howns.insert (Nat.le_refl _) ?_ ?_
      · rintro i ⟨⟩
      · rintro i other y ⟨⟩
  | some x =>
      have hname := name_of_get? hx
      cases hset : x.set s t with
      | error e =>
          simp only [bindIn, hx, hset] at h
          cases h
      | ok filled =>
          obtain ⟨store, y⟩ := filled
          simp only [bindIn, hx, hset] at h
          cases h
          have hfilled := Variable.filled_of_set (fun i hi => howns.inside hx hi) hset
          have hname : y.name = name := (Variable.name_of_set hset).trans hname
          refine bound_insert ?_ hname hfilled.value ?_
          · refine howns.insert (Nat.le_of_eq hfilled.size.symm) ?_ ?_
            · intro i hi
              exact Nat.lt_of_lt_of_eq (howns.inside hx (hfilled.slot i hi)) hfilled.size.symm
            · intro i other z hi hz hzcell
              rw [hname]
              exact howns.apart hx hz (hfilled.slot i hi) hzcell
          · intro other z hother hz
            -- a variable with another name has another slot, so writing does not reach it
            refine hfilled.others z (Bool.eq_false_iff.2 ?_)
            intro hshares
            obtain ⟨i, hxcell, hzcell⟩ := Variable.exists_slot_of_shares hshares
            exact hother (howns.apart hx hz hxcell hzcell)

theorem exists_bindIn_of_unbound (hfree : c.value? s name = none) (t : Term) :
    ∃ after, bindIn ⟨s, c⟩ name t = .ok after := by
  cases hx : c.get? name with
  | none =>
      simp only [bindIn, hx]
      exact ⟨_, rfl⟩
  | some x =>
      rw [value?, hx, Option.bind_some] at hfree
      obtain ⟨after, y, hset⟩ := Variable.exists_set_of_unbound hfree t
      simp only [bindIn, hx, hset]
      exact ⟨_, rfl⟩

end Context

/-! ## All bindings of a set -/

namespace BindingSet

theorem get?_cons (binding : Binding) (rest : List Binding) (name : Path) :
    (BindingSet.mk (binding :: rest)).get? name =
      if binding.name = name then some binding.value else (BindingSet.mk rest).get? name := by
  unfold get?
  rw [List.find?_cons]
  by_cases hname : binding.name = name <;> simp [hname]

/-- What writing a binding set has done: its names are bound, all others are as before. -/
structure Written (b : BindingSet) (before after : Context.Scope) : Prop where
  owns : after.context.Owns after.store
  value : ∀ name, after.context.value? after.store name =
    (b.get? name).or (before.context.value? before.store name)
  kept : ∀ name, name ∉ b.names → after.context.get? name = before.context.get? name

theorem apply_cons (binding : Binding) (rest : List Binding) (scope : Context.Scope) :
    (BindingSet.mk (binding :: rest)).apply scope =
      match Context.bindIn scope binding.name binding.value with
      | .ok after => (BindingSet.mk rest).apply after
      | .error e => (.error e, scope) := by
  rw [apply, pairs, List.map_cons, Context.bindAll, bind_apply, Context.bind, bind_apply, get_apply]
  dsimp only
  cases Context.bindIn scope binding.name binding.value <;> rfl

theorem written_of_apply {s : Store} {c : Context} (howns : c.Owns s) {b : BindingSet}
    (hnodup : b.names.Nodup) {after : Context.Scope} (h : b.apply ⟨s, c⟩ = (.ok (), after)) :
    b.Written ⟨s, c⟩ after := by
  obtain ⟨bindings⟩ := b
  induction bindings generalizing s c with
  | nil =>
      cases h
      exact ⟨howns, fun _ => rfl, fun _ _ => rfl⟩
  | cons binding rest ih =>
      obtain ⟨hnew, hnodup⟩ := List.nodup_cons.1 hnodup
      rw [apply_cons] at h
      cases hbind : Context.bindIn ⟨s, c⟩ binding.name binding.value with
      | error e =>
          rw [hbind] at h
          cases h
      | ok middle =>
          rw [hbind] at h
          have hbound := Context.bound_of_bindIn howns hbind
          have hwritten := ih hbound.owns hnodup h
          refine ⟨hwritten.owns, ?_, ?_⟩
          · intro name
            rw [hwritten.value, get?_cons, hbound.value]
            by_cases hname : binding.name = name
            · have hnone : (BindingSet.mk rest).get? name = none := by
                rw [← Option.not_isSome_iff_eq_none, get?_isSome_iff, ← hname]
                exact hnew
              rw [if_pos hname, if_pos hname, hnone]
              rfl
            · rw [if_neg hname, if_neg hname]
          · intro name hname
            have hother : binding.name ≠ name := by
              rintro rfl
              exact hname List.mem_cons_self
            exact (hwritten.kept name fun h => hname (List.mem_cons_of_mem _ h)).trans
              (Context.get?_of_bindIn hbind hother)

theorem exists_apply_of_unbound {s : Store} {c : Context} (howns : c.Owns s) {b : BindingSet}
    (hnodup : b.names.Nodup) (hfree : ∀ name ∈ b.names, c.value? s name = none) :
    ∃ after, b.apply ⟨s, c⟩ = (.ok (), after) := by
  obtain ⟨bindings⟩ := b
  induction bindings generalizing s c with
  | nil => exact ⟨⟨s, c⟩, rfl⟩
  | cons binding rest ih =>
      obtain ⟨hnew, hnodup⟩ := List.nodup_cons.1 hnodup
      obtain ⟨hfirst, hfree⟩ := List.forall_mem_cons.1 hfree
      obtain ⟨middle, hbind⟩ := Context.exists_bindIn_of_unbound hfirst binding.value
      have hbound := Context.bound_of_bindIn howns hbind
      rw [apply_cons, hbind]
      refine ih hbound.owns hnodup ?_
      intro name hname
      have hother : binding.name ≠ name := by
        rintro rfl
        exact hnew hname
      exact ((hbound.value name).trans (if_neg hother)).trans (hfree name hname)

end BindingSet

end Deliberation
