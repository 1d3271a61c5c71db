import Deliberation.Proofs.Copy.Growth

/-!
# Copies of values and terms

A value is copied into new boxes and a mutex variable into a new slot, one inside
the other.  The number of boxes bounds how deep the boxes of a value are nested,
and where no slot leads back to itself the number of slots bounds how often one
leads to the next, so that a copy is never cut off.
-/

namespace Deliberation

open Relation

/-- Boxes of a heap without cycles can be ranked below their number. -/
theorem Heap.Acyclic.exists_rank {h : Heap} (hacyclic : h.Acyclic)
    (hclosed : ∀ {b c}, c ∈ (h.read b).marks → c < h.size) :
    ∃ rank : BoxId → Nat, (∀ {b c}, c ∈ (h.read b).marks → rank c < rank b) ∧
      ∀ b < h.size, rank b < h.size := by
  obtain ⟨rank, hrank⟩ := hacyclic
  have hlower : ∀ {b c}, TransGen (fun b c => c ∈ (h.read b).marks) b c → rank c < rank b := by
    intro b c hway
    induction hway with
    | single hc => exact hrank _ _ hc
    | tail _ hc ih => exact (hrank _ _ hc).trans ih
  have hacyclic : ∀ b, ¬ TransGen (fun b c => c ∈ (h.read b).marks) b b :=
    fun b hway => Nat.lt_irrefl _ (hlower hway)
  exact ⟨height (fun b c => c ∈ (h.read b).marks) h.size,
    fun hc => height_lt hc (hclosed hc) (hacyclic _), fun b hb => height_lt_bound hb (hacyclic b)⟩

namespace Memory

/-- Run an operation on the store inside a memory. -/
def onStore {α : Type} (operation : StateM Store α) : StateM Memory α := fun m =>
  ((operation m.store).1, { m with store := (operation m.store).2 })

/-- Run an operation on the heap inside a memory. -/
def onHeap {α : Type} (operation : StateM Heap α) : StateM Memory α :=
  onStore (Store.onHeap operation)

/-! ## Values -/

/-- What is seen of a value when boxes are opened to each depth. -/
def lookAt (m : Memory) (_ : Nat) (v : Value) : Outline × (Nat → Tree) :=
  (v.outline, fun n => m.store.heap.unboxTo n v)

theorem lookAt_of_marks_nil {v : Value} (hv : v.marks = []) (m base : Memory) (k : Nat) :
    m.lookAt k v = base.lookAt k v := by
  refine congrArg (Prod.mk v.outline) (funext fun n => ?_)
  cases n with
  | zero => rfl
  | succ n =>
      refine Datum.bind_congr v fun b hb => ?_
      rw [hv] at hb
      cases hb

theorem lookAt_list (m : Memory) (k : Nat) (items : List Value) :
    m.lookAt k (.list items) = (.list ((items.map (m.lookAt k)).map Prod.fst),
      fun n => .list ((items.map (m.lookAt k)).map fun seen => seen.2 n)) := by
  have htrees : ∀ n, m.store.heap.unboxTo n (.list items) =
      .list (items.map (m.store.heap.unboxTo n)) := by
    intro n
    cases n <;> exact congrArg Datum.list (Datum.bindAll_eq_map _ items)
  have houtline : (Datum.list items).outline = .list (items.map Datum.outline) :=
    congrArg Datum.list (Datum.bindAll_eq_map _ items)
  simp only [lookAt, List.map_map, houtline, htrees]
  rfl

section Values

variable {base : Memory} {f : BoxId → StateM Heap Value}

mutual

/-- A value is copied when each of its boxes is. -/
theorem copies_bindM : ∀ v : Value,
    (∀ b ∈ v.marks, Copies base Datum.places lookAt (onHeap (f b)) (.box b)) →
      Copies base Datum.places lookAt (onHeap (v.bindM f)) v
  | .empty, _ => .pure rfl fun m k => lookAt_of_marks_nil rfl m base k
  | .bool _, _ => .pure rfl fun m k => lookAt_of_marks_nil rfl m base k
  | .int _, _ => .pure rfl fun m k => lookAt_of_marks_nil rfl m base k
  | .float _, _ => .pure rfl fun m k => lookAt_of_marks_nil rfl m base k
  | .text _, _ => .pure rfl fun m k => lookAt_of_marks_nil rfl m base k
  | .list items, h =>
      (copies_bindAllM items h).map Datum.list
        (fun seen => (.list (seen.map Prod.fst), fun n => .list (seen.map fun each => each.2 n)))
        (fun _ => rfl) (fun m k items => lookAt_list m k items)
  | .box b, h => h b List.mem_cons_self

theorem copies_bindAllM : ∀ items : List Value,
    (∀ b ∈ Datum.marksAll items, Copies base Datum.places lookAt (onHeap (f b)) (.box b)) →
      Copies base (fun items => (Datum.marksAll items).map Place.box)
        (fun m k items => items.map (m.lookAt k)) (onHeap (Datum.bindAllM f items)) items
  | [], _ => .pure rfl fun _ _ => rfl
  | item :: rest, h =>
      (copies_bindM item fun b hb => h b (List.mem_append_left _ hb)).both
        (copies_bindAllM rest fun b hb => h b (List.mem_append_right _ hb)) List.cons List.cons
        (fun _ _ => List.map_append) (fun _ _ _ _ => rfl)

end

variable (hsound : base.Sound)

include hsound

theorem copies_copyTo {rank : BoxId → Nat}
    (hrank : ∀ {b c}, c ∈ (base.store.heap.read b).marks → rank c < rank b) {bound : Nat}
    {v : Value} (hv : ∀ b ∈ v.marks, base.Live (.box b) ∧ rank b < bound) :
    Copies base Datum.places lookAt (onHeap (Heap.copyTo bound v)) v := by
  induction bound generalizing v with
  | zero => exact copies_bindM v fun b hb => absurd (hv b hb).2 (Nat.not_lt_zero _)
  | succ bound ih =>
      refine copies_bindM v fun b hb m hm => ?_
      obtain ⟨hlive, hlt⟩ := hv b hb
      have hinside : ∀ c ∈ (base.store.heap.read b).marks, base.Live (.box c) ∧ rank c < bound :=
        fun c hc => ⟨hsound.closed (p := .box b) (List.mem_map_of_mem hc),
          Nat.lt_of_lt_of_le (hrank hc) (Nat.le_of_lt_succ hlt)⟩
      obtain ⟨hgrown, hkept, hfresh, hsame⟩ := ih hinside m hm
      have hread := hm.kept.read_eq hlive
      rw [← hread] at hgrown hkept hfresh hsame
      generalize hcopied : onHeap (Heap.copyTo bound (m.store.heap.read b)) m = copied at *
      have hresult : onHeap (do
          let content ← Heap.copyTo bound ((← get).read b)
          let copy ← modifyGet fun h => (h.alloc content).swap
          pure (Datum.box copy)) m =
            (Datum.box copied.2.store.heap.size, copied.2.allocBox copied.1) := by
        rw [← hcopied]
        rfl
      rw [hresult]
      have hallocates := allocates_box copied.2 copied.1
      refine ⟨hallocates.grown hgrown hfresh fun _ => rfl, hkept.trans hallocates.kept, ?_, ?_⟩
      · intro p hp
        rw [List.mem_singleton.1 hp]
        refine ⟨fun hold => ?_, hallocates.there⟩
        exact Nat.lt_irrefl _ (hgrown.kept.live hold)
      · intro later hlater k
        refine congrArg (Prod.mk _) (funext fun depth => ?_)
        cases depth with
        | zero => rfl
        | succ depth =>
            have hnew : later.store.heap.read copied.2.store.heap.size = copied.1 :=
              Content.value.inj ((hlater.content hallocates.there).trans hallocates.here)
            change later.store.heap.unboxTo depth (later.store.heap.read _) =
              base.store.heap.unboxTo depth (base.store.heap.read b)
            rw [hnew, ← hread]
            exact congrFun (congrArg Prod.snd (hsame (hallocates.kept.trans hlater) k)) depth

/-- The copy of a value has the outline and the tree of the value. -/
theorem copies_value {v : Value} (hv : ∀ p ∈ v.places, base.Live p) :
    Copies base Datum.places
      (fun m _ v => Picture.value v.outline (m.store.heap.unbox v)) (onHeap (Heap.copy v)) v := by
  obtain ⟨rank, hrank, hbound⟩ := hsound.boxes.exists_rank fun {b c} hc =>
    hsound.closed (p := .box b) (q := .box c) (List.mem_map_of_mem hc)
  obtain ⟨ranking⟩ := hsound.boxes.ranking
  intro m hm
  have hsize := (sizes_of_live hm.kept.live).1
  have hmarks : ∀ b ∈ v.marks, base.Live (.box b) ∧ rank b < m.store.heap.size := by
    intro b hb
    have hlive := hv _ (List.mem_map_of_mem hb)
    exact ⟨hlive, Nat.lt_of_lt_of_le (hbound b hlive) hsize⟩
  obtain ⟨hgrown, hkept, hfresh, hsame⟩ := copies_copyTo hsound hrank hmarks m hm
  refine ⟨hgrown, hkept, hfresh, fun {later} hlater k => ?_⟩
  have hseen := hsame hlater k
  have htree : later.store.heap.unbox (onHeap (Heap.copy v) m).1 = base.store.heap.unbox v := by
    have hbelow := ranking.below_size v
    refine (congrFun (congrArg Prod.snd hseen) later.store.heap.size).trans ?_
    refine ranking.unboxTo_eq (fun b hb => (hbelow b hb).trans_le (Nat.succ_le_succ ?_)) hbelow
    exact (sizes_of_live (hgrown.kept.trans hlater).live).1
  exact congrArg₂ Picture.value (congrArg Prod.fst hseen) htree

end Values

/-! ## Ways through slots -/

/-- The place is there, and every way through slots from it ends after at most `n` slots. -/
def Within (m : Memory) : Nat → Place → Prop
  | 0, .slot _ => False
  | n + 1, .slot i => m.Live (.slot i) ∧ ∀ p, m.Leads (.slot i) p → m.Within n p
  | _, .box b => m.Live (.box b)
  | _, .view v => m.Live (.view v)

section Within

variable {m : Memory} {n n' : Nat} {p : Place}

theorem Within.live (h : m.Within n p) : m.Live p := by
  cases p with
  | box b => cases n <;> exact h
  | slot i =>
      cases n with
      | zero => exact h.elim
      | succ n => exact h.1
  | view v => cases n <;> exact h

theorem Within.mono (h : m.Within n p) (hn : n ≤ n') : m.Within n' p := by
  induction n generalizing n' p with
  | zero =>
      cases p with
      | slot i => exact h.elim
      | box b => cases n' <;> exact h
      | view v => cases n' <;> exact h
  | succ n ih =>
      obtain ⟨k, rfl⟩ : ∃ k, n' = k + 1 := ⟨n' - 1, by omega⟩
      cases p with
      | slot i => exact ⟨h.1, fun q hq => ih (h.2 q hq) (Nat.le_of_succ_le_succ hn)⟩
      | box b => exact h
      | view v => exact h

/-- A slot that leads to another one is higher than it, so the height bounds the way. -/
theorem within_of_height (hsound : m.Sound) (hlive : m.Live p) (hunwound : m.Unwound p)
    (hheight : ∀ i, p = .slot i →
      height (fun i j => m.Leads (.slot i) (.slot j)) m.store.slots.size i < n) :
    m.Within n p := by
  induction n generalizing p with
  | zero =>
      cases p with
      | slot i => exact absurd (hheight i rfl) (Nat.not_lt_zero _)
      | box b => exact hlive
      | view v => exact hlive
  | succ n ih =>
      cases p with
      | slot i =>
          refine ⟨hlive, fun q hlead => ih (hsound.closed hlead) (hunwound.step hlead) ?_⟩
          rintro j rfl
          refine Nat.lt_of_lt_of_le (height_lt hlead (hsound.closed hlead) ?_)
            (Nat.le_of_lt_succ (hheight i rfl))
          exact fun hway => hunwound j (.single hlead) (hway.lift Place.slot fun _ _ => id)
      | box b => exact hlive
      | view v => exact hlive

/-- Where no slot leads back to itself, a way through slots is no longer than there are slots. -/
theorem Unwound.within (hunwound : m.Unwound p) (hsound : m.Sound) (hlive : m.Live p) :
    m.Within m.store.slots.size p := by
  refine within_of_height hsound hlive hunwound ?_
  rintro i rfl
  exact height_lt_bound hlive fun hway =>
    hunwound i .refl (hway.lift Place.slot fun _ _ => id)

end Within

/-! ## Terms -/

/-- The places of a binding. -/
def bindingPlaces (t : Option Term) : List Place := t.elim [] Term.places

section Terms

variable {base : Memory} {region : Place → Prop} {slot : SlotId → StateM Store (Option Term)}

/-- The places of a region are there, and `slot` copies what the slots among them are bound to. -/
structure CopiesSlots (base : Memory) (region : Place → Prop)
    (slot : SlotId → StateM Store (Option Term)) : Prop where
  live : ∀ {p}, region p → base.Live p
  copies : ∀ {i}, region (.slot i) → Copies base bindingPlaces
    (fun m k t => t.map (Term.picture m.store k)) (onStore (slot i)) (base.store.readSlot i)

/-- A mutex cell gets a new slot with a copy of what the old one is bound to. -/
theorem copies_mutex (hslot : CopiesSlots base region slot) {i : SlotId} (hi : region (.slot i)) :
    Copies base Cell.places
      (fun m k cell => (cell.kind, cell.pictureWith m.store.heap (m.store.slotPicture k)))
      (onStore (Cell.copyWith slot (.mutex i))) (.mutex i) := by
  intro m hm
  obtain ⟨hgrown, hkept, hfresh, hsame⟩ := hslot.copies hi m hm
  generalize hcopied : onStore (slot i) m = copied at *
  have hresult : onStore (Cell.copyWith slot (.mutex i)) m =
      (.mutex copied.2.store.slots.size, copied.2.allocSlot copied.1) := by
    rw [Cell.copyWith, ← hcopied]
    rfl
  rw [hresult]
  have hallocates := allocates_slot copied.2 copied.1
  refine ⟨hallocates.grown hgrown hfresh (by rintro v ⟨⟩), hkept.trans hallocates.kept, ?_, ?_⟩
  · intro p hp
    rw [List.mem_singleton.1 hp]
    refine ⟨fun hold => ?_, hallocates.there⟩
    exact Nat.lt_irrefl _ (hgrown.kept.live hold)
  · intro later hlater k
    refine congrArg (Prod.mk VariableKind.mutex) ?_
    cases k with
    | zero => rfl
    | succ k =>
        have hnew : later.store.readSlot copied.2.store.slots.size = copied.1 :=
          Content.binding.inj ((hlater.content hallocates.there).trans hallocates.here)
        change (later.store.readSlot _).map _ = (base.store.readSlot i).map _
        rw [hnew]
        exact hsame (hallocates.kept.trans hlater) k

mutual

theorem copies_term (hsound : base.Sound) (hslot : CopiesSlots base region slot) :
    ∀ t : Term, (∀ p ∈ t.places, region p) →
      Copies base Term.places (fun m k t => t.picture m.store k)
        (onStore (t.copyWith slot)) t
  | .raw _, ht =>
      (copies_value hsound fun p hp => hslot.live (ht p hp)).map Term.raw id (fun _ => rfl)
        fun _ _ _ => rfl
  | .var x, ht =>
      (copies_variable hsound hslot x ht).map Term.var id (fun _ => rfl) fun _ _ _ => rfl
  | .lit l, ht =>
      (copies_literal hsound hslot l ht).map Term.lit id (fun _ => rfl) fun _ _ _ => rfl

theorem copies_literal (hsound : base.Sound) (hslot : CopiesSlots base region slot) :
    ∀ l : Literal, (∀ p ∈ l.places, region p) →
      Copies base Literal.places (fun m k l => l.picture m.store k)
        (onStore (l.copyWith slot)) l
  | ⟨functor, arguments, annotations, negated, marked⟩, hl =>
      (copies_terms hsound hslot arguments fun p hp => hl p (List.mem_append_left _ hp)).both
        (copies_literals hsound hslot annotations fun p hp => hl p (List.mem_append_right _ hp))
        (fun arguments annotations => Literal.mk functor arguments annotations negated marked)
        (Picture.literal functor negated marked) (fun _ _ => rfl) fun _ _ _ _ => rfl

theorem copies_variable (hsound : base.Sound) (hslot : CopiesSlots base region slot) :
    ∀ x : Variable, (∀ p ∈ x.places, region p) →
      Copies base Variable.places (fun m k x => x.picture m.store k)
        (onStore (x.copyWith slot)) x
  | ⟨name, cell⟩, hx =>
      (copies_cell hsound hslot cell hx).map (Variable.mk name)
        (fun seen => .var name seen.1 seen.2) (fun _ => rfl) fun _ _ _ => rfl

theorem copies_cell (hsound : base.Sound) (hslot : CopiesSlots base region slot) :
    ∀ cell : Cell, (∀ p ∈ cell.places, region p) →
      Copies base Cell.places
        (fun m k cell => (cell.kind, cell.pictureWith m.store.heap (m.store.slotPicture k)))
        (onStore (cell.copyWith slot)) cell
  | .free none, _ => .pure rfl fun _ _ => rfl
  | .free (some t), hcell =>
      (copies_term hsound hslot t hcell).map (fun t => Cell.free (some t))
        (fun seen => (VariableKind.free, some seen)) (fun _ => rfl) fun _ _ _ => rfl
  | .constant t, hcell =>
      (copies_term hsound hslot t hcell).map Cell.constant
        (fun seen => (VariableKind.constant, some seen)) (fun _ => rfl) fun _ _ _ => rfl
  | .mutex _, hcell => copies_mutex hslot (hcell _ List.mem_cons_self)
  | .relocate _ none, _ => .pure rfl fun _ _ => rfl
  | .relocate target (some t), hcell =>
      (copies_term hsound hslot t hcell).map (fun t => Cell.relocate target (some t))
        (fun seen => (VariableKind.relocate target, some seen)) (fun _ => rfl) fun _ _ _ => rfl

theorem copies_terms (hsound : base.Sound) (hslot : CopiesSlots base region slot) :
    ∀ ts : List Term, (∀ p ∈ Term.placesAll ts, region p) →
      Copies base Term.placesAll
        (fun m k ts => Term.picturesWith m.store.heap (m.store.slotPicture k) ts)
        (onStore (Term.copyAllWith slot ts)) ts
  | [], _ => .pure rfl fun _ _ => rfl
  | t :: rest, hts =>
      (copies_term hsound hslot t fun p hp => hts p (List.mem_append_left _ hp)).both
        (copies_terms hsound hslot rest fun p hp => hts p (List.mem_append_right _ hp))
        List.cons List.cons (fun _ _ => rfl) fun _ _ _ _ => rfl

theorem copies_literals (hsound : base.Sound) (hslot : CopiesSlots base region slot) :
    ∀ ls : List Literal, (∀ p ∈ Literal.placesAll ls, region p) →
      Copies base Literal.placesAll
        (fun m k ls => Literal.picturesWith m.store.heap (m.store.slotPicture k) ls)
        (onStore (Literal.copyAllWith slot ls)) ls
  | [], _ => .pure rfl fun _ _ => rfl
  | l :: rest, hls =>
      (copies_literal hsound hslot l fun p hp => hls p (List.mem_append_left _ hp)).both
        (copies_literals hsound hslot rest fun p hp => hls p (List.mem_append_right _ hp))
        List.cons List.cons (fun _ _ => rfl) fun _ _ _ _ => rfl

end

theorem copySlot_succ (n : Nat) (i : SlotId) (s : Store) :
    Store.copySlot (n + 1) i s =
      ((match s.readSlot i with
        | none => pure none
        | some t => do
            let t ← t.copyWith (Store.copySlot n)
            pure (some t)) : StateM Store (Option Term)) s := rfl

/-- A slot is copied with all that it is bound to, when slots are followed often enough. -/
theorem copiesSlots_copySlot (hsound : base.Sound) (n : Nat) :
    CopiesSlots base (base.Within n) (Store.copySlot n) := by
  refine ⟨Within.live, ?_⟩
  induction n with
  | zero => exact fun h => h.elim
  | succ n ih =>
      intro i hi m hm
      have hread := hm.kept.readSlot_eq hi.1
      unfold onStore
      rw [copySlot_succ, hread]
      cases ht : base.store.readSlot i with
      | none => exact Copies.pure rfl (fun _ _ => rfl) m hm
      | some t =>
          have hplaces : ∀ p ∈ t.places, base.Within n p := by
            refine fun p hp => hi.2 p ?_
            change p ∈ (base.store.readSlot i).elim [] Term.places
            rwa [ht]
          have hcopies := copies_term hsound ⟨Within.live, ih⟩ t hplaces
          exact hcopies.map some some (fun _ => rfl) (fun _ _ _ => rfl) m hm

end Terms

/-! ## Whole copies -/

section Whole

variable {base : Memory} (hsound : base.Sound)

include hsound

/-- The slots of a memory that has grown are as many as needed to follow those of before. -/
theorem Grown.copiesSlots {m : Memory} (hm : base.Grown m) :
    CopiesSlots base (base.Within base.store.slots.size) (Store.copySlot m.store.slots.size) where
  live := Within.live
  copies hi := (copiesSlots_copySlot hsound m.store.slots.size).copies
    (hi.mono (sizes_of_live hm.kept.live).2.1)

theorem copies_term_copy {t : Term}
    (ht : ∀ p ∈ t.places, base.Within base.store.slots.size p) :
    Copies base Term.places (fun m k t => t.picture m.store k) (onStore t.copy) t :=
  fun m hm => copies_term hsound (hm.copiesSlots hsound) t ht m hm

theorem copies_variable_copy {x : Variable}
    (hx : ∀ p ∈ x.places, base.Within base.store.slots.size p) :
    Copies base Variable.places (fun m k x => x.picture m.store k) (onStore x.copy) x :=
  fun m hm => copies_variable hsound (hm.copiesSlots hsound) x hx m hm

theorem copies_literal_copy {l : Literal}
    (hl : ∀ p ∈ l.places, base.Within base.store.slots.size p) :
    Copies base Literal.places (fun m k l => l.picture m.store k) (onStore l.copy) l :=
  fun m hm => copies_literal hsound (hm.copiesSlots hsound) l hl m hm

end Whole

end Memory

end Deliberation
