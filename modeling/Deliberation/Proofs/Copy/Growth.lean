import Deliberation.Proofs.Copy.Pictures

/-!
# Copies are new and look the same

A copy is made step by step in a memory that grows.  The places that were there
before keep their contents, the new ones lead to new ones only, and the picture
of what was copied is the picture of the original, now and after any further
growth.  These facts pass from the parts of a term to the whole.
-/

namespace Deliberation

namespace Memory

/-! ## Growing memories -/

/-- The places of a memory are still there later, with the same contents. -/
structure Kept (m later : Memory) : Prop where
  live : ∀ {p}, m.Live p → later.Live p
  content : ∀ {p}, m.Live p → later.content p = m.content p

/-- A place that was made since. -/
def Fresh (base m : Memory) (p : Place) : Prop := ¬ base.Live p ∧ m.Live p

/-- A memory that has grown: new places lead to new places, and new boxes to older ones. -/
structure Grown (base m : Memory) : Prop where
  kept : base.Kept m
  new : ∀ {p q}, ¬ base.Live p → m.Leads p q → base.Fresh m q
  lower : ∀ {b c}, base.store.heap.size ≤ b → c ∈ (m.store.heap.read b).marks → c < b

section Growth

variable {base m after : Memory} {p : Place}

theorem Kept.refl : m.Kept m := ⟨id, fun _ => rfl⟩

theorem Kept.trans (hfirst : base.Kept m) (hsecond : m.Kept after) : base.Kept after where
  live hp := hsecond.live (hfirst.live hp)
  content hp := (hsecond.content (hfirst.live hp)).trans (hfirst.content hp)

theorem Fresh.mono (h : base.Fresh m p) (hkept : m.Kept after) : base.Fresh after p :=
  ⟨h.1, hkept.live h.2⟩

theorem Kept.read_eq (h : m.Kept after) {b : BoxId} (hb : b < m.store.heap.size) :
    after.store.heap.read b = m.store.heap.read b :=
  Content.value.inj (h.content (p := .box b) hb)

theorem Kept.readSlot_eq (h : m.Kept after) {i : SlotId} (hi : i < m.store.slots.size) :
    after.store.readSlot i = m.store.readSlot i :=
  Content.binding.inj (h.content (p := .slot i) hi)

theorem Kept.view_eq (h : m.Kept after) {v : ViewId} (hv : v < m.graph.size) :
    after.graph.view v = m.graph.view v :=
  Content.view.inj (h.content (p := .view v) hv)

theorem Grown.refl : base.Grown base where
  kept := .refl
  new hp hlead := absurd hlead.live hp
  lower hb hc := by
    rw [Heap.read_of_size_le hb] at hc
    cases hc

/-- A grown memory grows on when the newest places are given new content. -/
theorem Grown.extend (h : base.Grown m) (hkept : m.Kept after)
    (hnew : ∀ {p q}, ¬ m.Live p → after.Leads p q → base.Fresh m q)
    (hlower : ∀ {b c}, m.store.heap.size ≤ b → c ∈ (after.store.heap.read b).marks → c < b) :
    base.Grown after where
  kept := h.kept.trans hkept
  new {p q} hp hlead := by
    by_cases hlive : m.Live p
    · rw [Leads, hkept.content hlive] at hlead
      exact (h.new hp hlead).mono hkept
    · exact (hnew hlive hlead).mono hkept
  lower {b c} hb hc := by
    by_cases hlive : b < m.store.heap.size
    · rw [hkept.read_eq hlive] at hc
      exact h.lower hb hc
    · exact hlower (Nat.le_of_not_lt hlive) hc

end Growth

/-! ## New places -/

/-- A place was made and given its content, and nothing else has changed. -/
structure Allocates (m after : Memory) (made : Place) (content : Content) : Prop where
  new : ¬ m.Live made
  there : after.Live made
  live : ∀ {p}, m.Live p → after.Live p
  here : after.content made = content
  elsewhere : ∀ {p}, p ≠ made → after.content p = m.content p

/-- The memory with a new box. -/
def allocBox (m : Memory) (v : Value) : Memory :=
  { m with store := { m.store with heap := (m.store.heap.alloc v).1 } }

/-- The memory with a new slot. -/
def allocSlot (m : Memory) (t : Option Term) : Memory :=
  { m with store := (m.store.allocSlot t).1 }

/-- The memory with a new view. -/
def putView (m : Memory) (node : View) : Memory :=
  { m with graph := m.graph.put node }

section Allocates

variable {base m after : Memory} {made : Place} {content : Content}

theorem allocates_box (m : Memory) (v : Value) :
    Allocates m (m.allocBox v) (.box m.store.heap.size) (.value v) where
  new := Nat.lt_irrefl _
  there := by simp [Live, allocBox]
  live {p} hp := by
    cases p with
    | box b => exact Nat.lt_of_lt_of_le hp (by simp [allocBox])
    | slot i => exact hp
    | view v => exact hp
  here := congrArg Content.value ((Heap.read_alloc ..).trans (if_pos rfl))
  elsewhere {p} hp := by
    cases p with
    | box b =>
        have hb : b ≠ m.store.heap.size := fun h => hp (congrArg Place.box h)
        exact congrArg Content.value ((Heap.read_alloc ..).trans (if_neg hb))
    | slot i => rfl
    | view v => rfl

theorem allocates_slot (m : Memory) (t : Option Term) :
    Allocates m (m.allocSlot t) (.slot m.store.slots.size) (.binding t) where
  new := Nat.lt_irrefl _
  there := by simp [Live, allocSlot, Store.allocSlot]
  live {p} hp := by
    cases p with
    | box b => exact hp
    | slot i => exact Nat.lt_of_lt_of_le hp (by simp [allocSlot, Store.allocSlot])
    | view v => exact hp
  here := by
    simp [Memory.content, allocSlot, Store.readSlot, Store.allocSlot, Array.getD_eq_getD_getElem?]
  elsewhere {p} hp := by
    cases p with
    | box b => rfl
    | slot i =>
        have hi : i ≠ m.store.slots.size := fun h => hp (congrArg Place.slot h)
        simp [Memory.content, allocSlot, Store.readSlot, Store.allocSlot, hi,
          Array.getD_eq_getD_getElem?, Array.getElem?_push]
    | view v => rfl

theorem allocates_view (m : Memory) (node : View) :
    Allocates m (m.putView node) (.view m.graph.size) (.view node) where
  new := Nat.lt_irrefl _
  there := by simp [Live, putView, BeliefGraph.size_put]
  live {p} hp := by
    cases p with
    | box b => exact hp
    | slot i => exact hp
    | view v => exact Nat.lt_of_lt_of_le hp (by simp [putView, BeliefGraph.size_put])
  here := congrArg Content.view ((BeliefGraph.view_put _).trans (if_pos rfl))
  elsewhere {p} hp := by
    cases p with
    | box b => rfl
    | slot i => rfl
    | view v =>
        have hv : v ≠ m.graph.size := fun h => hp (congrArg Place.view h)
        exact congrArg Content.view ((BeliefGraph.view_put v).trans (if_neg hv))

theorem Allocates.kept (h : Allocates m after made content) : m.Kept after where
  live := h.live
  content {p} hp := h.elsewhere (by rintro rfl; exact h.new hp)

/-- A new place with new content lets a memory grow. -/
theorem Allocates.grown (h : Allocates m after made content) (hgrown : base.Grown m)
    (hcontent : ∀ q ∈ content.places, base.Fresh m q)
    (hbox : ∀ {v}, content = .value v → made = .box m.store.heap.size) : base.Grown after := by
  have hnew : ∀ {p q}, ¬ m.Live p → after.Leads p q → p = made ∧ q ∈ content.places := by
    intro p q hp hlead
    by_cases hmade : p = made
    · subst hmade
      rw [Leads, h.here] at hlead
      exact ⟨rfl, hlead⟩
    · rw [Leads, h.elsewhere hmade] at hlead
      exact absurd hlead (places_of_not_live hp ▸ List.not_mem_nil)
  refine hgrown.extend h.kept (fun hp hlead => hcontent _ (hnew hp hlead).2) ?_
  intro b c hb hc
  obtain ⟨hmade, hmem⟩ := hnew (p := .box b) (q := .box c) (Nat.not_lt.2 hb)
    (List.mem_map_of_mem hc)
  have hvalue : content = .value (after.store.heap.read b) := by
    rw [← h.here, ← hmade]
    rfl
  have hsame := hmade.trans (hbox hvalue)
  cases hsame
  exact (hcontent _ hmem).2

end Allocates

/-! ## Copies of parts and of the whole -/

/--
A step of copying: the memory has grown, the copy holds new places only, and it
looks like the original, however many slots are followed.
-/
structure CopyStep {α ρ : Type} (base m : Memory) (places : α → List Place)
    (look : Memory → Nat → α → ρ) (a : α) (result : α × Memory) : Prop where
  grown : base.Grown result.2
  kept : m.Kept result.2
  fresh : ∀ p ∈ places result.1, base.Fresh result.2 p
  same : ∀ {later}, result.2.Kept later → ∀ k, look later k result.1 = look base k a

/-- An operation copies something in every memory that has grown from `base`. -/
def Copies {α ρ : Type} (base : Memory) (places : α → List Place)
    (look : Memory → Nat → α → ρ) (copy : StateM Memory α) (a : α) : Prop :=
  ∀ m, base.Grown m → CopyStep base m places look a (copy m)

namespace Copies

variable {α β γ ρ ρ₁ ρ₂ : Type} {base : Memory} {places : α → List Place}
  {look : Memory → Nat → α → ρ} {places₁ : β → List Place} {look₁ : Memory → Nat → β → ρ₁}
  {places₂ : γ → List Place} {look₂ : Memory → Nat → γ → ρ₂}

/-- What holds no place is its own copy. -/
theorem pure {a : α} (hplaces : places a = []) (hlook : ∀ m k, look m k a = look base k a) :
    Copies base places look (Pure.pure a) a := by
  intro m hm
  refine ⟨hm, .refl, fun p hp => ?_, fun _ k => hlook _ k⟩
  have hmem : p ∈ places a := hp
  rw [hplaces] at hmem
  cases hmem

/-- The copy of a part is put in the place of the part. -/
theorem map {copy : StateM Memory β} {b : β} (h : Copies base places₁ look₁ copy b) (f : β → α)
    (show₁ : ρ₁ → ρ) (hplaces : ∀ b, places (f b) = places₁ b)
    (hlook : ∀ m k b, look m k (f b) = show₁ (look₁ m k b)) :
    Copies base places look (do let b ← copy; Pure.pure (f b)) (f b) := by
  intro m hm
  obtain ⟨hgrown, hkept, hfresh, hsame⟩ := h m hm
  refine ⟨hgrown, hkept, fun p hp => hfresh p ?_, fun hlater k => ?_⟩
  · exact hplaces _ ▸ hp
  · exact (hlook ..).trans ((congrArg show₁ (hsame hlater k)).trans (hlook ..).symm)

/-- Two parts are copied one after the other; the first copy outlives the second. -/
theorem both {first : StateM Memory β} {second : StateM Memory γ} {b : β} {c : γ}
    (hfirst : Copies base places₁ look₁ first b) (hsecond : Copies base places₂ look₂ second c)
    (f : β → γ → α) (show₂ : ρ₁ → ρ₂ → ρ)
    (hplaces : ∀ b c, places (f b c) = places₁ b ++ places₂ c)
    (hlook : ∀ m k b c, look m k (f b c) = show₂ (look₁ m k b) (look₂ m k c)) :
    Copies base places look (do let b ← first; let c ← second; Pure.pure (f b c)) (f b c) := by
  intro m hm
  obtain ⟨hgrown₁, hkept₁, hfresh₁, hsame₁⟩ := hfirst m hm
  obtain ⟨hgrown₂, hkept₂, hfresh₂, hsame₂⟩ := hsecond (first m).2 hgrown₁
  refine ⟨hgrown₂, hkept₁.trans hkept₂, fun p hp => ?_, fun hlater k => ?_⟩
  · have hparts : p ∈ places (f (first m).1 (second (first m).2).1) := hp
    rw [hplaces, List.mem_append] at hparts
    rcases hparts with hp | hp
    · exact (hfresh₁ p hp).mono hkept₂
    · exact hfresh₂ p hp
  · refine (hlook ..).trans (Eq.trans ?_ (hlook ..).symm)
    exact congrArg₂ show₂ (hsame₁ (hkept₂.trans hlater) k) (hsame₂ hlater k)

end Copies

end Memory

end Deliberation
