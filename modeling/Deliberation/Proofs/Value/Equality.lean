import Deliberation.Value.Heap
import Mathlib.Data.Finset.Prod
import Mathlib.Data.List.Forall2

/-!
# Equality of values

Equality of values is an equivalence in every heap, also where boxes contain
themselves.  A comparison that succeeds at all succeeds within its bound: it only
compares parts of the two values and of what the boxes hold, and where one more
opening of boxes makes no further pair of these parts equal, no later one does.
-/

namespace Deliberation

namespace Datum

variable {β : Type}

/-- To prove something of all data, prove it of a list from its items, and of anything else. -/
theorem induction {motive : Datum β → Prop} (atom : ∀ v, (∀ items, v ≠ .list items) → motive v)
    (list : ∀ items, (∀ v ∈ items, motive v) → motive (.list items)) : ∀ v, motive v :=
  fun v => Datum.rec (motive_2 := fun items => ∀ v ∈ items, motive v)
    (atom _ nofun) (fun _ => atom _ nofun) (fun _ => atom _ nofun) (fun _ => atom _ nofun)
    (fun _ => atom _ nofun) list (fun _ => atom _ nofun) nofun
    (fun _ _ hitem hrest => List.forall_mem_cons.2 ⟨hitem, hrest⟩) v

theorem partsAll_eq (items : List (Datum β)) : partsAll items = items.flatMap parts := by
  induction items with
  | nil => rfl
  | cons item rest ih => rw [partsAll, ih, List.flatMap_cons]

theorem self_mem_parts (v : Datum β) : v ∈ v.parts := by
  cases v <;> exact List.mem_cons_self

theorem mem_parts_list {items : List (Datum β)} {v : Datum β} :
    v ∈ (Datum.list items).parts ↔ v = .list items ∨ ∃ item ∈ items, v ∈ item.parts := by
  rw [parts, List.mem_cons, partsAll_eq, List.mem_flatMap]

theorem parts_subset {v w : Datum β} (h : v ∈ w.parts) : v.parts ⊆ w.parts := by
  induction w using Datum.induction with
  | atom w hatom =>
      cases w with
      | list items => exact absurd rfl (hatom items)
      | _ => rw [List.mem_singleton.1 h]; exact List.Subset.refl _
  | list items ih =>
      rcases mem_parts_list.1 h with rfl | ⟨item, hitem, h⟩
      · exact List.Subset.refl _
      · intro u hu
        exact mem_parts_list.2 (.inr ⟨item, hitem, ih item hitem h hu⟩)

end Datum

/-- Where relations follow one another for each of some items, they do for lists of them. -/
theorem forall₂_comp {α β γ : Type} {R : α → β → Prop} {S : β → γ → Prop} {T : α → γ → Prop}
    {items : List α} {others : List β} {last : List γ}
    (h : ∀ x ∈ items, ∀ y z, R x y → S y z → T x z) (hfirst : List.Forall₂ R items others)
    (hlast : List.Forall₂ S others last) : List.Forall₂ T items last := by
  induction hfirst generalizing last with
  | nil =>
      cases hlast
      exact .nil
  | cons hxy _ ih =>
      cases hlast with
      | cons hyz hlast =>
          obtain ⟨hx, hrest⟩ := List.forall_mem_cons.1 h
          exact .cons (hx _ _ hxy hyz) (ih hrest hlast)

namespace Heap

/-! ## Comparing part by part -/

section EqualWith

variable {f g k : Value → Value → Bool} {v w u : Value}

/-- Whether a pair of values is not compared part by part. -/
def MeetsBox (v w : Value) : Prop := ∃ b, v = .box b ∨ w = .box b

theorem equalAllWith_iff {items others : List Value} :
    equalAllWith f items others = true ↔
      List.Forall₂ (fun x y => equalWith f x y = true) items others := by
  induction items generalizing others with
  | nil => cases others <;> simp [equalAllWith]
  | cons item rest ih => cases others <;> simp [equalAllWith, ih]

theorem equalWith_list {items others : List Value} :
    equalWith f (.list items) (.list others) = true ↔
      List.Forall₂ (fun x y => equalWith f x y = true) items others :=
  equalAllWith_iff

theorem equalWith_of_meetsBox (h : MeetsBox v w) :
    equalWith f v w = true ↔ v = w ∨ f v w = true := by
  obtain ⟨b, rfl | rfl⟩ := h
  · cases w <;> simp [equalWith]
  · cases v <;> simp [equalWith]

/-- What a comparison finds equal: the same atoms, what it finds of boxes, and lists. -/
theorem equalWith_iff :
    equalWith f v w = true ↔
      (v = w ∧ ∀ items, v ≠ .list items) ∨ (MeetsBox v w ∧ f v w = true) ∨
        ∃ items others, v = .list items ∧ w = .list others ∧
          List.Forall₂ (fun x y => equalWith f x y = true) items others := by
  by_cases hbox : MeetsBox v w
  · rw [equalWith_of_meetsBox hbox]
    constructor
    · rintro (rfl | h)
      · refine .inl ⟨rfl, ?_⟩
        obtain ⟨b, rfl | rfl⟩ := hbox <;> nofun
      · exact .inr (.inl ⟨hbox, h⟩)
    · rintro (⟨h, -⟩ | ⟨-, h⟩ | ⟨items, others, rfl, rfl, -⟩)
      · exact .inl h
      · exact .inr h
      · obtain ⟨b, h | h⟩ := hbox <;> cases h
  · have hv : ∀ b, v ≠ .box b := fun b h => hbox ⟨b, .inl h⟩
    have hw : ∀ b, w ≠ .box b := fun b h => hbox ⟨b, .inr h⟩
    cases v <;> cases w <;> simp_all [equalWith, equalAllWith_iff]

theorem equalWith_refl (f : Value → Value → Bool) (v : Value) : equalWith f v v = true := by
  induction v using Datum.induction with
  | atom v hatom => exact equalWith_iff.2 (.inl ⟨rfl, hatom⟩)
  | list items ih => exact equalWith_list.2 (List.forall₂_same.2 ih)

/-- A comparison that finds more pairs with boxes equal finds more values equal. -/
theorem equalWith_mono (hsub : ∀ a ∈ v.parts, ∀ b ∈ w.parts, f a b = true → g a b = true)
    (h : equalWith f v w = true) : equalWith g v w = true := by
  induction v using Datum.induction generalizing w with
  | atom v hatom =>
      rcases equalWith_iff.1 h with ⟨rfl, -⟩ | ⟨hbox, h⟩ | ⟨items, others, rfl, -, -⟩
      · exact equalWith_refl g v
      · exact equalWith_iff.2 (.inr (.inl
          ⟨hbox, hsub v v.self_mem_parts w w.self_mem_parts h⟩))
      · exact absurd rfl (hatom items)
  | list items ih =>
      rcases equalWith_iff.1 h with ⟨rfl, -⟩ | ⟨hbox, h⟩ | ⟨_, others, ⟨⟩, rfl, hall⟩
      · exact equalWith_refl g _
      · exact equalWith_iff.2 (.inr (.inl
          ⟨hbox, hsub _ (Datum.self_mem_parts _) w w.self_mem_parts h⟩))
      · obtain ⟨hlength, hall⟩ := List.forall₂_iff_zip.1 hall
        refine equalWith_list.2 (List.forall₂_iff_zip.2 ⟨hlength, fun {x y} hxy => ?_⟩)
        obtain ⟨hx, hy⟩ := List.of_mem_zip hxy
        refine ih x hx (fun a ha b hb => hsub a ?_ b ?_) (hall hxy)
        · exact Datum.mem_parts_list.2 (.inr ⟨x, hx, ha⟩)
        · exact Datum.mem_parts_list.2 (.inr ⟨y, hy, hb⟩)

theorem equalWith_symm
    (hbox : ∀ a b, MeetsBox a b → equalWith f a b = true → equalWith g b a = true)
    (h : equalWith f v w = true) : equalWith g w v = true := by
  induction v using Datum.induction generalizing w with
  | atom v hatom =>
      rcases equalWith_iff.1 h with ⟨rfl, -⟩ | ⟨hmeets, -⟩ | ⟨items, others, rfl, -, -⟩
      · exact equalWith_refl g v
      · exact hbox v w hmeets h
      · exact absurd rfl (hatom items)
  | list items ih =>
      rcases equalWith_iff.1 h with ⟨rfl, -⟩ | ⟨hmeets, -⟩ | ⟨_, others, ⟨⟩, rfl, hall⟩
      · exact equalWith_refl g _
      · exact hbox _ w hmeets h
      · refine equalWith_list.2 (List.Forall₂.flip ?_)
        exact ((List.forall₂_and_left _ _).2 ⟨fun x hx => hx, hall⟩).imp fun x y hxy =>
          ih x hxy.1 hxy.2

theorem equalWith_trans
    (hbox : ∀ a b c, MeetsBox a b ∨ MeetsBox b c → equalWith f a b = true →
      equalWith g b c = true → equalWith k a c = true)
    (hf : equalWith f v w = true) (hg : equalWith g w u = true) : equalWith k v u = true := by
  induction v using Datum.induction generalizing w u with
  | atom v hatom =>
      rcases equalWith_iff.1 hf with ⟨rfl, -⟩ | ⟨hmeets, -⟩ | ⟨items, others, rfl, -, -⟩
      · rcases equalWith_iff.1 hg with ⟨rfl, -⟩ | ⟨hmeets, -⟩ | ⟨items, others, rfl, -, -⟩
        · exact equalWith_refl k v
        · exact hbox v v u (.inr hmeets) hf hg
        · exact absurd rfl (hatom items)
      · exact hbox v w u (.inl hmeets) hf hg
      · exact absurd rfl (hatom items)
  | list items ih =>
      rcases equalWith_iff.1 hf with ⟨rfl, hatom⟩ | ⟨hmeets, -⟩ | ⟨_, others, ⟨⟩, rfl, hfirst⟩
      · exact absurd rfl (hatom items)
      · exact hbox _ w u (.inl hmeets) hf hg
      · rcases equalWith_iff.1 hg with ⟨rfl, hatom⟩ | ⟨hmeets, -⟩ | ⟨_, last, ⟨⟩, rfl, hlast⟩
        · exact absurd rfl (hatom others)
        · exact hbox _ _ u (.inr hmeets) hf hg
        · refine equalWith_list.2 (forall₂_comp ?_ hfirst hlast)
          exact fun x hx y z hxy hyz => ih x hx hxy hyz

end EqualWith

/-! ## Opening boxes -/

section EqualTo

variable {h : Heap} {v w u : Value} {n m : Nat}

theorem opened?_of_not_box (hv : ∀ b, v ≠ .box b) (n : Nat) : h.opened? n v = some v := by
  cases v with
  | box b => exact absurd rfl (hv b)
  | _ => cases n <;> rfl

theorem content?_of_not_box (hv : ∀ b, v ≠ .box b) : h.content? v = some v :=
  opened?_of_not_box hv _

theorem onContents_iff {compare : Value → Value → Bool} :
    h.onContents compare v w = true ↔
      ∃ v' w', h.content? v = some v' ∧ h.content? w = some w' ∧ compare v' w' = true := by
  unfold onContents
  cases h.content? v <;> cases h.content? w <;> simp

theorem equalTo_of_succ (hequal : h.equalTo n v w = true) : h.equalTo (n + 1) v w = true := by
  induction n generalizing v w with
  | zero => exact equalWith_mono (fun _ _ _ _ hnone => absurd hnone Bool.false_ne_true) hequal
  | succ n ih =>
      refine equalWith_mono (fun a _ b _ hab => ?_) hequal
      obtain ⟨a', b', ha, hb, hab⟩ := onContents_iff.1 hab
      exact onContents_iff.2 ⟨a', b', ha, hb, ih hab⟩

theorem equalTo_of_le (hnm : n ≤ m) (hequal : h.equalTo n v w = true) :
    h.equalTo m v w = true := by
  induction hnm with
  | refl => exact hequal
  | step _ ih => exact equalTo_of_succ ih

theorem equalTo_refl (h : Heap) (n : Nat) (v : Value) : h.equalTo n v v = true := by
  cases n <;> exact equalWith_refl _ v

/-- Values are equal where what is inside them is. -/
theorem equalTo_of_content {v' w' : Value} (hv : h.content? v = some v')
    (hw : h.content? w = some w') (hequal : h.equalTo n v' w' = true) :
    h.equalTo (n + 1) v w = true := by
  by_cases hbox : MeetsBox v w
  · exact (equalWith_of_meetsBox hbox).2 (.inr (onContents_iff.2 ⟨v', w', hv, hw, hequal⟩))
  · rw [content?_of_not_box fun b hb => hbox ⟨b, .inl hb⟩] at hv
    rw [content?_of_not_box fun b hb => hbox ⟨b, .inr hb⟩] at hw
    cases hv
    cases hw
    exact equalTo_of_succ hequal

/-- Equal values that are not the same box have equal contents, found with fewer boxes to open. -/
theorem content_of_equalTo (hequal : h.equalTo n v w = true) (hne : v ≠ w) :
    ∃ v' w' k, h.content? v = some v' ∧ h.content? w = some w' ∧ h.equalTo k v' w' = true ∧
      k ≤ n ∧ (MeetsBox v w → k < n) := by
  by_cases hbox : MeetsBox v w
  · cases n with
    | zero =>
        rcases (equalWith_of_meetsBox hbox).1 hequal with hsame | hnone
        · exact absurd hsame hne
        · cases hnone
    | succ n =>
        obtain ⟨v', w', hv, hw, hequal⟩ :=
          onContents_iff.1 (((equalWith_of_meetsBox hbox).1 hequal).resolve_left hne)
        exact ⟨v', w', n, hv, hw, hequal, n.le_succ, fun _ => n.lt_succ_self⟩
  · exact ⟨v, w, n, content?_of_not_box fun b hb => hbox ⟨b, .inl hb⟩,
      content?_of_not_box fun b hb => hbox ⟨b, .inr hb⟩, hequal, le_refl n,
      fun hmeets => absurd hmeets hbox⟩

theorem equalTo_symm (hequal : h.equalTo n v w = true) : h.equalTo n w v = true := by
  induction n generalizing v w with
  | zero =>
      refine equalWith_symm (fun a b hmeets hab => ?_) hequal
      rcases (equalWith_of_meetsBox hmeets).1 hab with rfl | hnone
      · exact equalWith_refl _ a
      · cases hnone
  | succ n ih =>
      refine equalWith_symm (fun a b hmeets hab => ?_) hequal
      rcases (equalWith_of_meetsBox hmeets).1 hab with rfl | hab
      · exact equalWith_refl _ a
      · obtain ⟨a', b', ha, hb, hab⟩ := onContents_iff.1 hab
        exact equalTo_of_content hb ha (ih hab)

theorem exists_equalWith (h : Heap) (n : Nat) :
    ∃ onBox, ∀ v w, h.equalTo n v w = equalWith onBox v w := by
  cases n <;> exact ⟨_, fun _ _ => rfl⟩

/-- Two comparisons that follow one another open as many boxes as the two together. -/
theorem equalTo_trans (hvw : h.equalTo n v w = true) (hwu : h.equalTo m w u = true) :
    h.equalTo (n + m) v u = true := by
  induction hsum : n + m using Nat.strong_induction_on generalizing n m v w u with
  | _ sum ih =>
    subst hsum
    obtain ⟨first, hfirst⟩ := h.exists_equalWith n
    obtain ⟨second, hsecond⟩ := h.exists_equalWith m
    obtain ⟨both, hboth⟩ := h.exists_equalWith (n + m)
    rw [hfirst] at hvw
    rw [hsecond] at hwu
    rw [hboth]
    refine equalWith_trans ?_ hvw hwu
    intro a b c hmeets hab hbc
    rw [← hfirst] at hab
    rw [← hsecond] at hbc
    rw [← hboth]
    by_cases hsame : a = b
    · subst hsame
      exact equalTo_of_le (Nat.le_add_left m n) hbc
    by_cases hsame' : b = c
    · subst hsame'
      exact equalTo_of_le (Nat.le_add_right n m) hab
    -- a box is opened in one of the two comparisons, so the contents take fewer openings
    obtain ⟨a', b', i, ha, hb, hab, hi, hmeetsi⟩ := content_of_equalTo hab hsame
    obtain ⟨b'', c', j, hb', hc, hbc, hj, hmeetsj⟩ := content_of_equalTo hbc hsame'
    cases hb.symm.trans hb'
    have hless : i + j < n + m := by
      rcases hmeets with hmeets | hmeets
      · have := hmeetsi hmeets
        omega
      · have := hmeetsj hmeets
        omega
    exact equalTo_of_le hless (equalTo_of_content ha hc (ih (i + j) hless hab hbc rfl))

end EqualTo

/-! ## The bound is enough -/

section Bound

variable {h : Heap} {v w : Value}

theorem read_mem_parts (h : Heap) (v w : Value) (b : BoxId) : h.read b ∈ h.parts v w := by
  unfold read
  rw [Array.getD_eq_getD_getElem?]
  cases hb : h.boxes[b]? with
  | none => exact List.mem_cons_self
  | some content =>
      refine List.mem_cons_of_mem _ (List.mem_flatMap.2 ⟨content, ?_, content.self_mem_parts⟩)
      simp [Array.mem_of_getElem? hb]

/-- Parts of parts are parts. -/
theorem parts_subset_parts {a : Value} (ha : a ∈ h.parts v w) : a.parts ⊆ h.parts v w := by
  rcases List.mem_cons.1 ha with rfl | ha
  · intro b hb
    rw [List.mem_singleton.1 hb]
    exact List.mem_cons_self
  · obtain ⟨whole, hwhole, ha⟩ := List.mem_flatMap.1 ha
    intro b hb
    exact List.mem_cons_of_mem _ (List.mem_flatMap.2 ⟨whole, hwhole, Datum.parts_subset ha hb⟩)

theorem content?_mem_parts {a content : Value} (ha : a ∈ h.parts v w)
    (hcontent : h.content? a = some content) : content ∈ h.parts v w := by
  have hopened : ∀ n a, a ∈ h.parts v w → h.opened? n a = some content →
      content ∈ h.parts v w := by
    intro n
    induction n with
    | zero =>
        intro a ha hopened
        cases a <;> cases hopened <;> exact ha
    | succ n ih =>
        intro a ha hopened
        cases a with
        | box b => exact ih _ (h.read_mem_parts v w b) hopened
        | _ => cases hopened; exact ha
  exact hopened _ a ha hcontent

/-- The pairs of parts that are found equal when boxes are opened at most `n` times. -/
def equalPairs (h : Heap) (v w : Value) (n : Nat) : Finset (Value × Value) :=
  ((h.parts v w).toFinset ×ˢ (h.parts v w).toFinset).filter
    fun pair => h.equalTo n pair.1 pair.2 = true

theorem mem_equalPairs {n : Nat} {a b : Value} :
    (a, b) ∈ h.equalPairs v w n ↔
      (a ∈ h.parts v w ∧ b ∈ h.parts v w) ∧ h.equalTo n a b = true := by
  simp [equalPairs]

theorem equalPairs_subset (h : Heap) (v w : Value) (n : Nat) :
    h.equalPairs v w n ⊆ h.equalPairs v w (n + 1) := by
  rintro ⟨a, b⟩ hab
  rw [mem_equalPairs] at hab ⊢
  exact ⟨hab.1, equalTo_of_succ hab.2⟩

/-- Where one more opening makes no further pair equal, the next one does not either. -/
theorem equalPairs_stable {n : Nat}
    (hstable : h.equalPairs v w n = h.equalPairs v w (n + 1)) :
    h.equalPairs v w (n + 1) = h.equalPairs v w (n + 2) := by
  refine (h.equalPairs_subset v w (n + 1)).antisymm ?_
  rintro ⟨a, b⟩ hab
  rw [mem_equalPairs] at hab ⊢
  refine ⟨hab.1, equalWith_mono (fun c hc d hd hcd => ?_) hab.2⟩
  obtain ⟨c', d', hc', hd', hcd⟩ := onContents_iff.1 hcd
  refine onContents_iff.2 ⟨c', d', hc', hd', ?_⟩
  have hc := content?_mem_parts (parts_subset_parts hab.1.1 hc) hc'
  have hd := content?_mem_parts (parts_subset_parts hab.1.2 hd) hd'
  have hpair : (c', d') ∈ h.equalPairs v w (n + 1) := mem_equalPairs.2 ⟨⟨hc, hd⟩, hcd⟩
  rw [← hstable] at hpair
  exact (mem_equalPairs.1 hpair).2

theorem card_equalPairs_le (h : Heap) (v w : Value) (n : Nat) :
    (h.equalPairs v w n).card ≤ (h.parts v w).length * (h.parts v w).length := by
  refine (Finset.card_filter_le _ _).trans ?_
  rw [Finset.card_product]
  exact Nat.mul_le_mul (List.toFinset_card_le _) (List.toFinset_card_le _)

/-- Two values are equal exactly when some number of openings shows it. -/
theorem equal_iff_exists : h.equal v w = true ↔ ∃ n, h.equalTo n v w = true := by
  refine ⟨fun hequal => ⟨_, hequal⟩, ?_⟩
  rintro ⟨n, hequal⟩
  obtain hn | hn := Nat.le_total n ((h.parts v w).length * (h.parts v w).length)
  · exact equalTo_of_le hn hequal
  have hmono : Monotone (h.equalPairs v w) := monotone_nat_of_le_succ (h.equalPairs_subset v w)
  have hcard := Nat.stabilises_of_monotone (fun _ _ hle => Finset.card_le_card (hmono hle))
    (h.card_equalPairs_le v w) (fun m hm => congrArg Finset.card (equalPairs_stable
      (Finset.eq_of_subset_of_card_le (h.equalPairs_subset v w m) hm.ge))) hn
  have hsame := Finset.eq_of_subset_of_card_le (hmono hn) hcard.le
  have hv : v ∈ h.parts v w :=
    List.mem_cons_of_mem _ (List.mem_flatMap.2 ⟨v, List.mem_cons_self, v.self_mem_parts⟩)
  have hw : w ∈ h.parts v w := List.mem_cons_of_mem _
    (List.mem_flatMap.2 ⟨w, List.mem_cons_of_mem _ List.mem_cons_self, w.self_mem_parts⟩)
  have hpair : (v, w) ∈ h.equalPairs v w n := mem_equalPairs.2 ⟨⟨hv, hw⟩, hequal⟩
  rw [← hsame] at hpair
  exact (mem_equalPairs.1 hpair).2

end Bound

/-! ## An equivalence -/

/-- Equality of values as an equivalence. -/
def equality (h : Heap) : Setoid Value where
  r v w := h.equal v w = true
  iseqv := {
    refl := fun v => h.equalTo_refl _ v
    symm := fun {v w} hvw => by
      obtain ⟨n, hvw⟩ := equal_iff_exists.1 hvw
      exact equal_iff_exists.2 ⟨n, equalTo_symm hvw⟩
    trans := fun {v w u} hvw hwu => by
      obtain ⟨n, hvw⟩ := equal_iff_exists.1 hvw
      obtain ⟨m, hwu⟩ := equal_iff_exists.1 hwu
      exact equal_iff_exists.2 ⟨n + m, equalTo_trans hvw hwu⟩ }

/-- What equality leaves of a value. -/
def meaning (h : Heap) (v : Value) : Quotient h.equality := Quotient.mk _ v

theorem equal_iff_meaning (h : Heap) (v w : Value) :
    h.equal v w = true ↔ h.meaning v = h.meaning w :=
  (Quotient.eq (r := h.equality)).symm

end Heap

end Deliberation
