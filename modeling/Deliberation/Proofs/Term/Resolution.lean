import Deliberation.Proofs.Term.Agreement
import Deliberation.Proofs.Value.Opening

/-!
# Following variables to their end

A chain of bound variables either comes to an end, at a value, a literal or an
unbound variable, or leads round in a circle of slots.  A term resolves to the
end of its chain: the number of slots bounds how often one has to be followed.
Round a circle it resolves to a variable that is bound, and only there.
-/

namespace Deliberation

variable {s : Store} {t u last : Term} {i : SlotId}

theorem Store.lt_size_of_readSlot (hread : s.readSlot i = some t) : i < s.slots.size := by
  by_contra hi
  rw [readSlot_of_size_le (Nat.le_of_not_lt hi)] at hread
  cases hread

/-- The chain of bound variables that starts at a term has its end at another. -/
inductive Term.ResolvesTo (s : Store) : Term → Term → Prop
  | here {t : Term} (hend : t.leadsOn s = false) : ResolvesTo s t t
  | follow {x : Variable} {t last : Term} (hvalue : x.value? s = some t)
      (h : ResolvesTo s t last) : ResolvesTo s (.var x) last

theorem Term.ResolvesTo.leadsOn (h : t.ResolvesTo s last) : last.leadsOn s = false := by
  induction h with
  | here hend => exact hend
  | follow _ _ ih => exact ih

theorem Term.resolvesTo_var_iff {x : Variable} (hvalue : x.value? s = some t) :
    (Term.var x).ResolvesTo s last ↔ t.ResolvesTo s last := by
  refine ⟨fun h => ?_, .follow hvalue⟩
  cases h with
  | here hend =>
      rw [leadsOn, Variable.isBound, hvalue] at hend
      cases hend
  | follow hother h =>
      cases hvalue.symm.trans hother
      exact h

/-! ## From slot to slot -/

/-- The end of the variables that hold their values themselves. -/
def Term.head (t : Term) : Term := t.resolveWith fun _ => none

theorem Term.resolvesTo_head_iff : ∀ t : Term, t.head.ResolvesTo s last ↔ t.ResolvesTo s last
  | .raw _ => Iff.rfl
  | .lit _ => Iff.rfl
  | .var ⟨_, .free (some t)⟩ => (resolvesTo_head_iff t).trans (resolvesTo_var_iff rfl).symm
  | .var ⟨_, .free none⟩ => Iff.rfl
  | .var ⟨_, .constant t⟩ => (resolvesTo_head_iff t).trans (resolvesTo_var_iff rfl).symm
  | .var ⟨_, .mutex _⟩ => Iff.rfl
  | .var ⟨_, .relocate _ (some t)⟩ => (resolvesTo_head_iff t).trans (resolvesTo_var_iff rfl).symm
  | .var ⟨_, .relocate _ none⟩ => Iff.rfl

theorem Term.leadsOn_head : ∀ {t : Term}, t.slot? = none → t.head.leadsOn s = false
  | .raw _, _ => rfl
  | .lit _, _ => rfl
  | .var ⟨_, .free (some t)⟩, h => leadsOn_head (t := t) h
  | .var ⟨_, .free none⟩, _ => rfl
  | .var ⟨_, .constant t⟩, h => leadsOn_head (t := t) h
  | .var ⟨_, .relocate _ (some t)⟩, h => leadsOn_head (t := t) h
  | .var ⟨_, .relocate _ none⟩, _ => rfl

theorem Term.head_of_slot? : ∀ {t : Term}, t.slot? = some i →
    ∃ name, t.head = .var ⟨name, .mutex i⟩ ∧ ∀ slot, t.resolveWith slot = (slot i).getD t.head
  | .var ⟨_, .free (some t)⟩, h => head_of_slot? (t := t) h
  | .var ⟨_, .constant t⟩, h => head_of_slot? (t := t) h
  | .var ⟨name, .mutex _⟩, h => by
      cases h
      exact ⟨name, rfl, fun _ => rfl⟩
  | .var ⟨_, .relocate _ (some t)⟩, h => head_of_slot? (t := t) h

/-- Go on to what the slot holds that a term leads to. -/
def Term.next (s : Store) (t : Term) : Term := (t.slot?.bind s.readSlot).getD t

theorem Term.resolvesTo_of_next (h : (t.next s).ResolvesTo s last) : t.ResolvesTo s last := by
  cases hcontent : t.slot?.bind s.readSlot with
  | none => rwa [next, hcontent, Option.getD_none] at h
  | some content =>
      rw [next, hcontent, Option.getD_some] at h
      obtain ⟨i, hslot, hread⟩ := Option.bind_eq_some_iff.1 hcontent
      obtain ⟨name, hhead, -⟩ := head_of_slot? hslot
      rw [← resolvesTo_head_iff, hhead]
      exact .follow (t := content) hread h

theorem Term.resolveTo_eq (n : Nat) (t : Term) :
    t.resolveTo s n = ((Term.next s)^[n] t).head := by
  induction n generalizing t with
  | zero => rfl
  | succ n ih =>
      rw [Function.iterate_succ_apply, ← ih, resolveTo]
      cases hslot : t.slot? with
      | none =>
          have hnext : t.next s = t := by rw [next, hslot]; rfl
          have hhead : ∀ slot, t.resolveWith slot = t.head := fun slot =>
            resolveWith_congr fun i hi => by rw [hslot] at hi; cases hi
          rw [hhead, hnext, ih, Function.iterate_fixed hnext]
      | some i =>
          obtain ⟨name, -, hhead⟩ := head_of_slot? hslot
          rw [hhead]
          cases hread : s.readSlot i with
          | none =>
              have hnext : t.next s = t := by rw [next, hslot, Option.bind_some, hread]; rfl
              rw [hnext, ih, Function.iterate_fixed hnext]
              rfl
          | some content =>
              rw [next, hslot, Option.bind_some, hread]
              rfl

/-- The filled slot that a term leads to. -/
def Term.place (s : Store) (t : Term) : Option (Fin s.slots.size) :=
  t.slot?.bind fun i =>
    if hi : (s.readSlot i).isSome then
      some ⟨i, Store.lt_size_of_readSlot (Option.some_get hi).symm⟩
    else none

theorem Term.place_eq_none_iff : t.place s = none ↔ t.head.leadsOn s = false := by
  cases hslot : t.slot? with
  | none => simp [place, hslot, leadsOn_head hslot]
  | some i =>
      obtain ⟨name, hhead, -⟩ := head_of_slot? hslot
      have hbound : (Term.var ⟨name, .mutex i⟩).leadsOn s = (s.readSlot i).isSome := rfl
      rw [hhead, hbound, place, hslot, Option.bind_some]
      by_cases hfilled : (s.readSlot i).isSome <;> simp [hfilled]

theorem Term.next_of_place (h : t.place s = none) : t.next s = t := by
  cases hslot : t.slot? with
  | none => rw [next, hslot]; rfl
  | some i =>
      cases hread : s.readSlot i with
      | none => rw [next, hslot, Option.bind_some, hread]; rfl
      | some content => simp [place, hslot, hread] at h

theorem Term.next_congr_of_place {place : Fin s.slots.size} (ht : t.place s = some place)
    (hu : u.place s = some place) : t.next s = u.next s := by
  have hslot : ∀ {v : Term}, v.place s = some place → v.slot? = some place.val := by
    intro v hv
    obtain ⟨i, hi, hplace⟩ := Option.bind_eq_some_iff.1 hv
    split at hplace
    · cases hplace
      exact hi
    · cases hplace
  have hfilled : (s.readSlot place).isSome := by
    obtain ⟨i, hi, hplace⟩ := Option.bind_eq_some_iff.1 ht
    split at hplace
    · next hfilled => cases hplace; exact hfilled
    · cases hplace
  obtain ⟨content, hread⟩ := Option.isSome_iff_exists.1 hfilled
  rw [next, next, hslot ht, hslot hu, Option.bind_some, hread]
  rfl

/-! ## The number of slots is enough -/

/-- A chain that comes to an end does so within as many slots as there are. -/
theorem Term.resolve_eq_of_resolveTo {n : Nat} (hlast : t.resolveTo s n = last)
    (hend : last.leadsOn s = false) : t.resolve s = last := by
  have hplace : ((Term.next s)^[n] t).place s = none := by
    rw [place_eq_none_iff, ← resolveTo_eq, hlast]
    exact hend
  have hstay : ∀ {k m : Nat}, k ≤ m → ((Term.next s)^[k] t).place s = none →
      (Term.next s)^[m] t = (Term.next s)^[k] t := by
    intro k m hkm hk
    obtain ⟨more, rfl⟩ := Nat.exists_eq_add_of_le' hkm
    rw [Function.iterate_add_apply, Function.iterate_fixed (next_of_place hk)]
  have hsize : ((Term.next s)^[s.slots.size] t).place s = none := by
    refine place_iterate_size ?_ ?_ ⟨n, hplace⟩
    · intro u hu
      rw [next_of_place hu, hu]
    · intro u v huv
      cases hv : v.place s with
      | none => rw [next_of_place hv, next_of_place (huv.trans hv), huv]
      | some place => rw [next_congr_of_place (huv.trans hv) hv]
  rw [resolve, resolveTo_eq, ← hlast, resolveTo_eq]
  obtain hn | hn := Nat.le_total n s.slots.size
  · rw [hstay hn hplace]
  · rw [hstay hn hsize]

theorem Term.ResolvesTo.exists_resolveTo (h : t.ResolvesTo s last) :
    ∃ n, t.resolveTo s n = last := by
  induction h with
  | @here t hend =>
      refine ⟨0, ?_⟩
      cases t with
      | var x => exact resolveWith_of_unbound (fun _ _ => rfl) hend
      | _ => rfl
  | @follow x t last hvalue _ ih =>
      obtain ⟨n, hn⟩ := ih
      obtain ⟨name, cell⟩ := x
      cases cell with
      | mutex i =>
          refine ⟨n + 1, ?_⟩
          have hread : s.readSlot i = some t := hvalue
          simp only [resolveTo, resolveWith, Cell.resolveWith, hread, Option.map_some,
            Option.getD_some, hn]
      | free value =>
          cases (hvalue : value = some t)
          exact ⟨n, by cases n <;> exact hn⟩
      | constant value =>
          cases (hvalue : some value = some t)
          exact ⟨n, by cases n <;> exact hn⟩
      | relocate target value =>
          cases (hvalue : value = some t)
          exact ⟨n, by cases n <;> exact hn⟩

theorem Term.resolvesTo_resolveTo {n : Nat} (hend : (t.resolveTo s n).leadsOn s = false) :
    t.ResolvesTo s (t.resolveTo s n) := by
  induction n generalizing t with
  | zero => exact (resolvesTo_head_iff t).1 (.here hend)
  | succ n ih =>
      have hstep : t.resolveTo s (n + 1) = (t.next s).resolveTo s n := by
        rw [resolveTo_eq, resolveTo_eq, Function.iterate_succ_apply]
      rw [hstep] at hend ⊢
      exact resolvesTo_of_next (ih hend)

/-- A term resolves to the end of its chain, if the chain has an end. -/
theorem Term.resolvesTo_iff :
    t.ResolvesTo s last ↔ t.resolve s = last ∧ last.leadsOn s = false := by
  constructor
  · intro h
    obtain ⟨n, hn⟩ := h.exists_resolveTo
    exact ⟨resolve_eq_of_resolveTo hn h.leadsOn, h.leadsOn⟩
  · rintro ⟨rfl, hend⟩
    exact resolvesTo_resolveTo hend

theorem Term.resolve_of_leadsOn (hend : t.leadsOn s = false) : t.resolve s = t :=
  (resolvesTo_iff.1 (.here hend)).1

end Deliberation
