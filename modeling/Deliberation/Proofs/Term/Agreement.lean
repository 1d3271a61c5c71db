import Deliberation.Proofs.Term.Renaming
import Deliberation.Proofs.Term.Writing

/-!
# Contexts that agree on names

Two contexts agree on some names when these stand for variables of the same kind
with the same value.  A mutex variable may have another slot in each of the two;
such slots are hidden, which means that no value leads to them.  What is read by
the names is then the same, and binding them keeps the agreement.
-/

namespace Deliberation

/-! ## Hidden slots -/

mutual

/-- The slot that a term leads to through variables that hold their values themselves. -/
def Term.slot? : Term → Option SlotId
  | .raw _ => none
  | .lit _ => none
  | .var ⟨_, cell⟩ => cell.slot?

/-- The slot that a cell leads to. -/
def Cell.slot? : Cell → Option SlotId
  | .free (some t) => t.slot?
  | .free none => none
  | .constant t => t.slot?
  | .mutex i => some i
  | .relocate _ (some t) => t.slot?
  | .relocate _ none => none

end

mutual

theorem Term.resolveWith_congr {f g : SlotId → Option Term} :
    ∀ {t : Term}, (∀ i, t.slot? = some i → f i = g i) → t.resolveWith f = t.resolveWith g
  | .raw _, _ => rfl
  | .lit _, _ => rfl
  | .var ⟨_, cell⟩, h => by
      rw [Term.resolveWith, Term.resolveWith, Cell.resolveWith_congr fun i hi => h i hi]

theorem Cell.resolveWith_congr {f g : SlotId → Option Term} :
    ∀ {cell : Cell}, (∀ i, cell.slot? = some i → f i = g i) →
      cell.resolveWith f = cell.resolveWith g
  | .free (some t), h => by
      rw [Cell.resolveWith, Cell.resolveWith, Term.resolveWith_congr fun i hi => h i hi]
  | .free none, _ => rfl
  | .constant t, h => by
      rw [Cell.resolveWith, Cell.resolveWith, Term.resolveWith_congr fun i hi => h i hi]
  | .mutex i, h => h i rfl
  | .relocate _ (some t), h => by
      rw [Cell.resolveWith, Cell.resolveWith, Term.resolveWith_congr fun i hi => h i hi]
  | .relocate _ none, _ => rfl

end

/-- A term does not lead to a hidden slot. -/
def Term.Avoids (hidden : SlotId → Prop) (t : Term) : Prop := ∀ i, t.slot? = some i → ¬ hidden i

theorem Term.avoids_of_ground {t : Term} (h : t.occurrences = []) (hidden : SlotId → Prop) :
    t.Avoids hidden := by
  rintro i hi
  cases t with
  | raw v => cases hi
  | lit l => cases hi
  | var x => cases h

namespace Store

/-- Two stores are the same but for hidden slots. -/
structure Alike (hidden : SlotId → Prop) (first second : Store) : Prop where
  heap : first.heap = second.heap
  size : first.slots.size = second.slots.size
  slots : ∀ i, ¬ hidden i → first.readSlot i = second.readSlot i

/-- The slots that are not hidden lead to no hidden slot. -/
def Sealed (hidden : SlotId → Prop) (s : Store) : Prop :=
  ∀ i t, ¬ hidden i → s.readSlot i = some t → t.Avoids hidden

theorem Alike.refl (hidden : SlotId → Prop) (s : Store) : s.Alike hidden s :=
  ⟨rfl, rfl, fun _ _ => rfl⟩

variable {hidden : SlotId → Prop} {first second : Store}

theorem Alike.resolve_eq (h : first.Alike hidden second) (hsealed : first.Sealed hidden) {t : Term}
    (ht : t.Avoids hidden) : t.resolve first = t.resolve second := by
  unfold Term.resolve
  rw [← h.size]
  generalize first.slots.size = n
  induction n generalizing t with
  | zero => rfl
  | succ n ih =>
      refine Term.resolveWith_congr fun i hi => ?_
      rw [← h.slots i (ht i hi)]
      cases hread : first.readSlot i with
      | none => rfl
      | some u => exact congrArg some (ih (hsealed i u (ht i hi) hread))

theorem Alike.rawValue_eq (h : first.Alike hidden second) (hsealed : first.Sealed hidden) {t : Term}
    (ht : t.Avoids hidden) : t.rawValue first = t.rawValue second := by
  rw [Term.rawValue, Term.rawValue, h.resolve_eq hsealed ht]

/-- The same term is written to a slot that the two stores have in common, or to hidden ones. -/
theorem Alike.writeSlot (h : first.Alike hidden second) {i j : SlotId}
    (hi : i < first.slots.size) (hij : i = j ∨ hidden i ∧ hidden j) (t : Term) :
    (first.writeSlot i t).Alike hidden (second.writeSlot j t) where
  heap := h.heap
  size := by
    rw [Store.writeSlot, Store.writeSlot, Array.size_setIfInBounds, Array.size_setIfInBounds]
    exact h.size
  slots k hk := by
    rcases hij with rfl | ⟨hhidden, hhidden'⟩
    · rw [readSlot_writeSlot hi, readSlot_writeSlot (h.size ▸ hi), h.slots k hk]
    · have hik : i ≠ k := by
        rintro rfl
        exact hk hhidden
      have hjk : j ≠ k := by
        rintro rfl
        exact hk hhidden'
      rw [readSlot_writeSlot_of_ne t hik, readSlot_writeSlot_of_ne t hjk, h.slots k hk]

theorem Sealed.writeSlot (h : first.Sealed hidden) (i : SlotId) {t : Term} (ht : t.Avoids hidden) :
    (first.writeSlot i t).Sealed hidden := by
  intro k u hk hread
  by_cases hik : i = k
  · subst hik
    by_cases hi : i < first.slots.size
    · rw [readSlot_writeSlot hi, if_pos rfl] at hread
      cases hread
      exact ht
    · rw [Store.writeSlot, Array.setIfInBounds_eq_of_size_le (Nat.le_of_not_lt hi)] at hread
      exact h i u hk hread
  · rw [readSlot_writeSlot_of_ne t hik] at hread
    exact h k u hk hread

end Store

namespace Context

/-- The slot of the mutex variable with a name. -/
def slot? (c : Context) (name : Path) : Option SlotId :=
  (c.get? name).bind fun x =>
    match x.cell with
    | .mutex i => some i
    | _ => none

theorem slot?_eq_some_iff {c : Context} {name : Path} {i : SlotId} :
    c.slot? name = some i ↔ ∃ x, c.get? name = some x ∧ x.cell = .mutex i := by
  unfold slot?
  cases c.get? name with
  | none => simp
  | some x =>
      obtain ⟨own, cell⟩ := x
      cases cell <;> simp

theorem isSome_slot?_iff {c : Context} {name : Path} :
    (c.slot? name).isSome ↔ c.kind? name = some .mutex := by
  unfold slot? kind?
  cases c.get? name with
  | none => simp
  | some x =>
      obtain ⟨own, cell⟩ := x
      cases cell <;> simp [Variable.kind, Cell.kind]

/-! ## Binding a name -/

section OneName

variable {scope after : Scope} {name : Path} {t : Term}

theorem store_of_bindIn (h : bindIn scope name t = .ok after) :
    after.store = match scope.context.slot? name with
      | some i => scope.store.writeSlot i t
      | none => scope.store := by
  unfold slot?
  cases hx : scope.context.get? name with
  | none =>
      simp only [bindIn, hx] at h
      cases h
      rfl
  | some x =>
      obtain ⟨own, cell⟩ := x
      simp only [bindIn, hx, Variable.set] at h
      cases cell <;> cases h <;> rfl

theorem kind?_of_bindIn (h : bindIn scope name t = .ok after) (other : Path) :
    after.context.kind? other =
      if name = other then some ((scope.context.kind? name).getD .free)
      else scope.context.kind? other := by
  cases hx : scope.context.get? name with
  | none =>
      simp only [bindIn, hx] at h
      cases h
      rw [kind?_insert, kind?, kind?, hx]
      rfl
  | some x =>
      have hname := name_of_get? hx
      obtain ⟨own, cell⟩ := x
      simp only [bindIn, hx, Variable.set] at h
      cases cell <;> cases h <;> rw [kind?_insert, kind?, kind?, hx] <;> exact if_congr (by
        rw [← hname]) rfl rfl

end OneName

theorem Scope.Evolves.slot? {before after : Scope} (h : before.Evolves after) (name : Path) :
    after.context.slot? name = before.context.slot? name := by
  ext i
  rw [slot?_eq_some_iff, slot?_eq_some_iff]
  constructor
  · rintro ⟨y, hy, hcell⟩
    cases hx : before.context.get? name with
    | none =>
        have hfree := h.new hx hy
        rw [Variable.kind, hcell] at hfree
        cases hfree
    | some x =>
        obtain ⟨z, hz, hxz⟩ := h.known hx
        cases hy.symm.trans hz
        exact ⟨x, rfl, hxz.eq_mutex.1 hcell⟩
  · rintro ⟨x, hx, hcell⟩
    obtain ⟨y, hy, hxy⟩ := h.known hx
    exact ⟨y, hy, hxy.eq_mutex.2 hcell⟩

theorem value?_of_slot? {c : Context} {name : Path} {i : SlotId} (h : c.slot? name = some i)
    (s : Store) : c.value? s name = s.readSlot i := by
  obtain ⟨x, hx, hcell⟩ := slot?_eq_some_iff.1 h
  rw [value?_of_get? hx, Variable.value?, hcell]

/-- Only a mutex variable has its value in the store. -/
theorem value?_of_slot?_none {c : Context} {name : Path} (h : c.slot? name = none)
    (first second : Store) : c.value? first name = c.value? second name := by
  unfold slot? at h
  unfold value?
  cases hx : c.get? name with
  | none => rfl
  | some x =>
      rw [hx] at h
      obtain ⟨own, cell⟩ := x
      cases cell with
      | mutex i => cases h
      | free value => rfl
      | constant value => rfl
      | relocate target value => rfl

/-- After the context is dropped, mutex variables have their new values and all others the old. -/
theorem Scope.Evolves.value?_discard {s after : Store} {c d : Context}
    (h : Scope.Evolves ⟨s, c⟩ ⟨after, d⟩) (name : Path) :
    c.value? after name =
      if (c.slot? name).isSome then d.value? after name else c.value? s name := by
  cases hslot : c.slot? name with
  | none => exact value?_of_slot?_none hslot after s
  | some i =>
      have hlater : d.slot? name = some i := (h.slot? name).trans hslot
      rw [value?_of_slot? hslot, value?_of_slot? hlater]
      rfl

/-! ## Agreement -/

/--
Two scopes agree on names: their stores are the same but for hidden slots, and each
of the names has the same kind and the same value in both, and the same slot or a
hidden one.
-/
structure Scope.Alike (hidden : SlotId → Prop) (names : Path → Prop) (first second : Scope) :
    Prop where
  store : first.store.Alike hidden second.store
  owns : first.context.Owns first.store ∧ second.context.Owns second.store
  kind : ∀ name, names name → first.context.kind? name = second.context.kind? name
  value : ∀ name, names name →
    first.context.value? first.store name = second.context.value? second.store name
  slot : ∀ name i j, names name → first.context.slot? name = some i →
    second.context.slot? name = some j → i = j ∨ hidden i ∧ hidden j

/-- No value leads to a hidden slot. -/
structure Scope.Sealed (hidden : SlotId → Prop) (names : Path → Prop) (scope : Scope) : Prop where
  store : scope.store.Sealed hidden
  value : ∀ name t, names name → scope.context.value? scope.store name = some t → t.Avoids hidden

namespace Scope

variable {hidden : SlotId → Prop} {names : Path → Prop} {first second : Scope}

/-- Both stores are written to, or neither is. -/
theorem Alike.store_bindIn (h : first.Alike hidden names second) {name : Path} (hname : names name)
    {t : Term} {a b : Scope} (ha : bindIn first name t = .ok a)
    (hb : bindIn second name t = .ok b) : a.store.Alike hidden b.store := by
  have hslots : (first.context.slot? name).isSome = (second.context.slot? name).isSome := by
    rw [Bool.eq_iff_iff, isSome_slot?_iff, isSome_slot?_iff, h.kind name hname]
  rw [store_of_bindIn ha, store_of_bindIn hb]
  cases hi : first.context.slot? name with
  | none =>
      cases hj : second.context.slot? name with
      | none => exact h.store
      | some j =>
          rw [hi, hj] at hslots
          cases hslots
  | some i =>
      cases hj : second.context.slot? name with
      | none =>
          rw [hi, hj] at hslots
          cases hslots
      | some j =>
          obtain ⟨x, hx, hcell⟩ := slot?_eq_some_iff.1 hi
          exact h.store.writeSlot (h.owns.1.inside hx hcell) (h.slot name i j hname hi hj) t

theorem Alike.bindIn (h : first.Alike hidden names second) {name : Path} (hname : names name)
    {t : Term} {a b : Scope} (ha : Context.bindIn first name t = .ok a)
    (hb : Context.bindIn second name t = .ok b) : a.Alike hidden names b := by
  have hbound := bound_of_bindIn h.owns.1 ha
  have hbound' := bound_of_bindIn h.owns.2 hb
  refine ⟨h.store_bindIn hname ha hb, ⟨hbound.owns, hbound'.owns⟩, ?_, ?_, ?_⟩
  · intro other hother
    rw [kind?_of_bindIn ha, kind?_of_bindIn hb, h.kind name hname, h.kind other hother]
  · intro other hother
    rw [hbound.value, hbound'.value, h.value other hother]
  · intro other i j hother hi hj
    rw [(evolves_of_bindIn ha).slot?] at hi
    rw [(evolves_of_bindIn hb).slot?] at hj
    exact h.slot other i j hother hi hj

theorem Alike.bindAll (h : first.Alike hidden names second) {pairs : List (Path × Term)}
    (hpairs : ∀ pair ∈ pairs, names pair.1) :
    (Context.bindAll pairs first).1 = (Context.bindAll pairs second).1 ∧
      (Context.bindAll pairs first).2.Alike hidden names (Context.bindAll pairs second).2 := by
  induction pairs generalizing first second with
  | nil => exact ⟨rfl, h⟩
  | cons pair rest ih =>
      obtain ⟨name, t⟩ := pair
      obtain ⟨hname, hrest⟩ := List.forall_mem_cons.1 hpairs
      have hfixes : first.context.fixes name = second.context.fixes name := by
        rw [fixes_eq, fixes_eq, h.kind name hname]
      rw [bindAll_cons, bindAll_cons]
      cases hfixed : second.context.fixes name with
      | true =>
          rw [bindIn_of_fixes (hfixes.trans hfixed), bindIn_of_fixes hfixed]
          exact ⟨rfl, h⟩
      | false =>
          obtain ⟨a, ha⟩ := exists_bindIn_of_not_fixes (hfixes.trans hfixed) t
          obtain ⟨b, hb⟩ := exists_bindIn_of_not_fixes hfixed t
          rw [ha, hb]
          exact ih (h.bindIn hname ha hb) hrest

theorem Sealed.bindAll {scope : Scope} (h : scope.Sealed hidden names)
    (howns : scope.context.Owns scope.store) {pairs : List (Path × Term)}
    (hpairs : ∀ pair ∈ pairs, pair.2.Avoids hidden) :
    (Context.bindAll pairs scope).2.Sealed hidden names := by
  induction pairs generalizing scope with
  | nil => exact h
  | cons pair rest ih =>
      obtain ⟨name, t⟩ := pair
      obtain ⟨ht, hrest⟩ := List.forall_mem_cons.1 hpairs
      rw [bindAll_cons]
      cases hbind : bindIn scope name t with
      | error e => exact h
      | ok middle =>
          have hbound := bound_of_bindIn howns hbind
          refine ih ⟨?_, ?_⟩ hbound.owns hrest
          · rw [store_of_bindIn hbind]
            cases scope.context.slot? name with
            | none => exact h.store
            | some i => exact h.store.writeSlot i ht
          · intro other u hother hu
            rw [hbound.value] at hu
            split at hu
            · cases hu
              exact ht
            · exact h.value other u hother hu

/-- The contexts are dropped, what was written to their slots stays. -/
theorem Alike.discard {s s' u u' : Store} {c c' d d' : Context}
    (h : Alike hidden names ⟨s, c⟩ ⟨u, d⟩) (h' : Alike hidden names ⟨s', c'⟩ ⟨u', d'⟩)
    (hc : Evolves ⟨s, c⟩ ⟨s', c'⟩) (hd : Evolves ⟨u, d⟩ ⟨u', d'⟩) :
    Alike hidden names ⟨s', c⟩ ⟨u', d⟩ := by
  refine ⟨h'.store, ⟨h.owns.1.mono hc.size, h.owns.2.mono hd.size⟩, h.kind, ?_, h.slot⟩
  intro name hname
  have hslots : (c.slot? name).isSome = (d.slot? name).isSome := by
    rw [Bool.eq_iff_iff, isSome_slot?_iff, isSome_slot?_iff]
    exact iff_of_eq (congrArg (· = _) (h.kind name hname))
  dsimp only
  rw [hc.value?_discard, hd.value?_discard, hslots]
  split
  · exact h'.value name hname
  · exact h.value name hname

theorem Sealed.discard {s after : Store} {c d : Context} (h : Sealed hidden names ⟨s, c⟩)
    (h' : Sealed hidden names ⟨after, d⟩) (hc : Evolves ⟨s, c⟩ ⟨after, d⟩) :
    Sealed hidden names ⟨after, c⟩ := by
  refine ⟨h'.store, fun name t hname ht => ?_⟩
  dsimp only at ht
  rw [hc.value?_discard] at ht
  split at ht
  · exact h'.value name t hname ht
  · exact h.value name t hname ht

end Scope

end Context

end Deliberation
