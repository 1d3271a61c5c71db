import Deliberation.Proofs.Value.Equality
import Mathlib.Data.Finset.Card
import Mathlib.Order.Interval.Finset.Nat

/-!
# Values without their boxes

Where no box contains itself, the bounds on opening boxes are never met: a value
unboxes to the tree of what its boxes hold, and two values are equal exactly when
they unbox to the same tree.
-/

namespace Deliberation

namespace Datum

variable {β γ : Type}

mutual

/-- The marks of the boxes in a datum. -/
def marks : Datum β → List β
  | .empty => []
  | .bool _ => []
  | .int _ => []
  | .float _ => []
  | .text _ => []
  | .list items => marksAll items
  | .box mark => [mark]

/-- The marks of the boxes in a list of data. -/
def marksAll : List (Datum β) → List β
  | [] => []
  | item :: rest => marks item ++ marksAll rest

end

theorem marksAll_eq (items : List (Datum β)) : marksAll items = items.flatMap marks := by
  induction items with
  | nil => rfl
  | cons item rest ih => rw [marksAll, ih, List.flatMap_cons]

/-- What is in a list without boxes has none. -/
theorem marks_of_mem {items : List (Datum β)} {v : Datum β} (h : (Datum.list items).marks = [])
    (hv : v ∈ items) : v.marks = [] := by
  rw [marks, marksAll_eq, List.flatMap_eq_nil_iff] at h
  exact h v hv

mutual

theorem bind_congr {f g : β → Datum γ} :
    ∀ v : Datum β, (∀ b ∈ v.marks, f b = g b) → v.bind f = v.bind g
  | .empty, _ => rfl
  | .bool _, _ => rfl
  | .int _, _ => rfl
  | .float _, _ => rfl
  | .text _, _ => rfl
  | .list items, h => congrArg Datum.list (bindAll_congr items h)
  | .box mark, h => h mark List.mem_cons_self

theorem bindAll_congr {f g : β → Datum γ} :
    ∀ items : List (Datum β), (∀ b ∈ marksAll items, f b = g b) →
      bindAll f items = bindAll g items
  | [], _ => rfl
  | item :: rest, h =>
      congrArg₂ List.cons (bind_congr item fun b hb => h b (List.mem_append_left _ hb))
        (bindAll_congr rest fun b hb => h b (List.mem_append_right _ hb))

end

mutual

/-- A datum without boxes stays the same, whatever is put in the place of boxes. -/
theorem bind_bind_of_marks (f : β → Datum γ) (g : γ → Datum β) :
    ∀ v : Datum β, v.marks = [] → (v.bind f).bind g = v
  | .empty, _ => rfl
  | .bool _, _ => rfl
  | .int _, _ => rfl
  | .float _, _ => rfl
  | .text _, _ => rfl
  | .list items, h => congrArg Datum.list (bindAll_bindAll_of_marks f g items h)
  | .box _, h => nomatch h

theorem bindAll_bindAll_of_marks (f : β → Datum γ) (g : γ → Datum β) :
    ∀ items : List (Datum β), marksAll items = [] →
      bindAll g (bindAll f items) = items
  | [], _ => rfl
  | item :: rest, h => by
      obtain ⟨hitem, hrest⟩ := List.append_eq_nil_iff.1 h
      exact congrArg₂ List.cons (bind_bind_of_marks f g item hitem)
        (bindAll_bindAll_of_marks f g rest hrest)

end

end Datum

/-! ## Ranks among finitely many places -/

/--
Where places lead to places of lower rank only, and only those below `size` lead
anywhere, there is a rank bounded by `size`: how many places have a lower rank,
counted from one.
-/
theorem exists_height {size : Nat} {leads : Nat → Nat → Prop} {rank : Nat → Nat}
    (hrank : ∀ b c, leads b c → rank c < rank b) (hlive : ∀ b c, leads b c → b < size) :
    ∃ height : Nat → Nat, (∀ b c, leads b c → height c < height b) ∧ (∀ b, height b ≤ size) ∧
      ∀ b, height b = 0 → size ≤ b := by
  let beneath (b : Nat) : Finset Nat := (Finset.range size).filter fun c => rank c < rank b
  refine ⟨fun b => if b < size then (beneath b).card + 1 else 0, ?_, ?_, ?_⟩
  · intro b c hbc
    have hlower := hrank b c hbc
    simp only [if_pos (hlive b c hbc)]
    by_cases hc : c < size
    · rw [if_pos hc, Nat.add_lt_add_iff_right]
      refine Finset.card_lt_card ((Finset.ssubset_iff_of_subset ?_).2 ⟨c, ?_, ?_⟩)
      · intro d hd
        simp only [beneath, Finset.mem_filter] at hd ⊢
        exact ⟨hd.1, hd.2.trans hlower⟩
      · simp only [beneath, Finset.mem_filter, Finset.mem_range]
        exact ⟨hc, hlower⟩
      · simp [beneath]
    · rw [if_neg hc]
      exact Nat.succ_pos _
  · intro b
    by_cases hb : b < size
    · have hproper : beneath b ⊂ Finset.range size := by
        refine (Finset.ssubset_iff_of_subset (Finset.filter_subset _ _)).2 ⟨b, ?_, ?_⟩
        · exact Finset.mem_range.2 hb
        · simp
      have hcard := Finset.card_lt_card hproper
      rw [Finset.card_range] at hcard
      simp only [if_pos hb]
      exact hcard
    · simp only [if_neg hb]
      exact Nat.zero_le _
  · intro b hb
    by_contra hlt
    simp only [if_pos (Nat.lt_of_not_le hlt)] at hb
    cases hb

namespace Heap

variable {h : Heap}

/-! ## Heaps without cycles -/

/-- Whether boxes can be ranked so that a box holds boxes of lower rank only. -/
def Acyclic (h : Heap) : Prop :=
  ∃ rank : BoxId → Nat, ∀ b, ∀ c ∈ (h.read b).marks, rank c < rank b

/-- A rank of boxes that is bounded by their number; a handle without a box has rank zero. -/
structure Ranking (h : Heap) where
  rank : BoxId → Nat
  lower : ∀ {b c}, c ∈ (h.read b).marks → rank c < rank b
  bounded : ∀ b, rank b ≤ h.size
  dangling : ∀ {b}, rank b = 0 → h.read b = .empty

theorem read_of_size_le {b : BoxId} (hb : h.size ≤ b) : h.read b = .empty := by
  have hb' : h.boxes.size ≤ b := hb
  simp [read, Array.getD_eq_getD_getElem?, hb']

/-- Only a box holds boxes, a handle without a box does not. -/
theorem lt_size_of_mem_marks {b c : BoxId} (hc : c ∈ (h.read b).marks) : b < h.size := by
  by_contra hb
  rw [read_of_size_le (Nat.le_of_not_lt hb)] at hc
  cases hc

/-- Where boxes hold boxes only that were made before them, no box contains itself. -/
theorem acyclic_of_earlier (hearlier : ∀ b < h.size, ∀ c ∈ (h.read b).marks, c < b) :
    h.Acyclic :=
  ⟨id, fun b c hc => hearlier b (lt_size_of_mem_marks hc) c hc⟩

theorem acyclic_empty : empty.Acyclic := acyclic_of_earlier (by decide)

theorem Acyclic.ranking (hacyclic : h.Acyclic) : Nonempty h.Ranking := by
  obtain ⟨rank, hrank⟩ := hacyclic
  obtain ⟨height, hlower, hbounded, hzero⟩ :=
    exists_height hrank fun _ _ => lt_size_of_mem_marks
  exact ⟨⟨height, fun hc => hlower _ _ hc, hbounded, fun hb => read_of_size_le (hzero _ hb)⟩⟩

/-! ## Opening boxes -/

namespace Ranking

/-- Whether all boxes in a value have a rank below a bound. -/
def Below (ranking : h.Ranking) (bound : Nat) (v : Value) : Prop :=
  ∀ b ∈ v.marks, ranking.rank b < bound

variable (ranking : h.Ranking)

theorem below_size (v : Value) : ranking.Below (h.size + 1) v :=
  fun b _ => Nat.lt_succ_of_le (ranking.bounded b)

/-- The content of a box has only boxes of lower rank. -/
theorem below_read (b : BoxId) : ranking.Below (ranking.rank b) (h.read b) :=
  fun _ hc => ranking.lower hc

theorem unboxTo_eq {n m : Nat} {v : Value} (hn : ranking.Below (n + 1) v)
    (hm : ranking.Below (m + 1) v) : h.unboxTo n v = h.unboxTo m v := by
  -- A bound that is used up leaves only handles without a box, which read as empty.
  induction n generalizing m v with
  | zero =>
      cases m with
      | zero => rfl
      | succ m =>
          refine Datum.bind_congr v ?_
          intro b hb
          rw [ranking.dangling (Nat.lt_one_iff.1 (hn b hb))]
          cases m <;> rfl
  | succ n ih =>
      cases m with
      | zero =>
          refine Datum.bind_congr v ?_
          intro b hb
          rw [ranking.dangling (Nat.lt_one_iff.1 (hm b hb))]
          cases n <;> rfl
      | succ m =>
          refine Datum.bind_congr v ?_
          intro b hb
          have hread := ranking.below_read b
          exact ih (fun c hc => (hread c hc).trans_le (Nat.le_of_lt_succ (hn b hb)))
            (fun c hc => (hread c hc).trans_le (Nat.le_of_lt_succ (hm b hb)))

include ranking in
/-- A value unboxes part by part, and a box to what it holds. -/
theorem unbox_eq_bind (v : Value) : h.unbox v = v.bind fun b => h.unbox (h.read b) := by
  have hbelow := ranking.below_size v
  exact ranking.unboxTo_eq (m := h.size + 1) hbelow
    fun b hb => (hbelow b hb).trans (Nat.lt_succ_self _)

theorem unbox_openBoxes {n : Nat} {v : Value} (hv : ranking.Below (n + 1) v) :
    h.unbox (h.openBoxes n v) = h.unbox v := by
  induction n generalizing v with
  | zero =>
      cases v with
      | box b =>
          have hread := ranking.dangling (Nat.lt_one_iff.1 (hv b List.mem_cons_self))
          rw [ranking.unbox_eq_bind (.box b), Datum.bind, hread]
          rfl
      | _ => rfl
  | succ n ih =>
      cases v with
      | box b =>
          have hb := hv b List.mem_cons_self
          rw [ranking.unbox_eq_bind (.box b)]
          exact ih fun c hc => (ranking.below_read b c hc).trans_le (Nat.le_of_lt_succ hb)
      | _ => rfl

theorem below_openBoxes (n : Nat) (b : BoxId) :
    ranking.Below (ranking.rank b) (h.openBoxes n (.box b)) := by
  induction n generalizing b with
  | zero =>
      intro c hc
      cases hc
  | succ n ih =>
      have hread := ranking.below_read b
      have hopen : h.openBoxes (n + 1) (.box b) = h.openBoxes n (h.read b) := rfl
      rw [hopen]
      cases hcontent : h.read b with
      | box c =>
          intro d hd
          rw [hcontent] at hread
          exact (ih c d hd).trans (hread c List.mem_cons_self)
      | _ =>
          intro d hd
          rw [hcontent] at hread
          cases n <;> exact hread d hd

include ranking in
theorem unbox_snapshot (v : Value) : h.unbox (h.snapshot v) = h.unbox v :=
  ranking.unbox_openBoxes (ranking.below_size v)

/-! ### Contents -/

theorem opened?_eq_some {n : Nat} {v : Value} (hv : ranking.Below n v) :
    h.opened? n v = some (h.openBoxes n v) := by
  induction n generalizing v with
  | zero =>
      cases v with
      | box b => exact absurd (hv b List.mem_cons_self) (Nat.not_lt_zero _)
      | _ => rfl
  | succ n ih =>
      cases v with
      | box b =>
          have hb := Nat.le_of_lt_succ (hv b List.mem_cons_self)
          exact ih fun c hc => (ranking.below_read b c hc).trans_le hb
      | _ => rfl

include ranking in
/-- Every value has a content, and unboxes to the same tree as that. -/
theorem content?_eq_some (v : Value) :
    ∃ content, h.content? v = some content ∧ h.unbox content = h.unbox v := by
  have hbelow := ranking.below_size v
  refine ⟨_, ranking.opened?_eq_some hbelow, ranking.unbox_openBoxes ?_⟩
  exact fun b hb => (hbelow b hb).trans (Nat.lt_succ_self _)

theorem below_content_box {bound : Nat} {b : BoxId} {content : Value}
    (hv : ranking.Below (bound + 1) (.box b)) (hcontent : h.content? (.box b) = some content) :
    ranking.Below bound content := by
  have hopened := ranking.opened?_eq_some (ranking.below_size (.box b))
  cases hcontent.symm.trans hopened
  intro c hc
  exact (ranking.below_openBoxes _ b c hc).trans_le
    (Nat.le_of_lt_succ (hv b List.mem_cons_self))

theorem below_content {bound : Nat} {v content : Value} (hv : ranking.Below bound v)
    (hcontent : h.content? v = some content) : ranking.Below bound content := by
  cases v with
  | box b =>
      have hb : ranking.Below (bound + 1) (.box b) :=
        fun c hc => (hv c hc).trans (Nat.lt_succ_self _)
      exact ranking.below_content_box hb hcontent
  | _ => cases hcontent; exact hv

/-! ## Equality -/

section EqualWith

variable {onBox : Value → Value → Bool} {first second : Nat}

/-- What a comparison must decide for pairs with a box, within bounds on the ranks in them. -/
def Decides (ranking : h.Ranking) (onBox : Value → Value → Bool) (first second : Nat) : Prop :=
  ∀ v w : Value, ranking.Below first v → ranking.Below second w → (∃ b, v = .box b ∨ w = .box b) →
    (onBox v w = true ↔
      v.bind (fun b => h.unbox (h.read b)) = w.bind fun b => h.unbox (h.read b))

mutual

theorem equalWith_iff (hbox : ranking.Decides onBox first second) :
    ∀ v w : Value, ranking.Below first v → ranking.Below second w →
      (equalWith onBox v w = true ↔
        v.bind (fun b => h.unbox (h.read b)) = w.bind fun b => h.unbox (h.read b))
  | .box a, w, hv, hw => by
      have hdecides := hbox _ w hv hw ⟨a, Or.inl rfl⟩
      rw [equalWith_of_meetsBox ⟨a, Or.inl rfl⟩, hdecides, or_iff_right_of_imp]
      rintro rfl
      rfl
  | .empty, w, hv, hw => by
      cases w with
      | box b => exact hbox _ _ hv hw ⟨b, Or.inr rfl⟩
      | _ => simp [equalWith, Datum.bind]
  | .bool _, w, hv, hw => by
      cases w with
      | box b => exact hbox _ _ hv hw ⟨b, Or.inr rfl⟩
      | _ => simp [equalWith, Datum.bind]
  | .int _, w, hv, hw => by
      cases w with
      | box b => exact hbox _ _ hv hw ⟨b, Or.inr rfl⟩
      | _ => simp [equalWith, Datum.bind]
  | .float _, w, hv, hw => by
      cases w with
      | box b => exact hbox _ _ hv hw ⟨b, Or.inr rfl⟩
      | _ => simp [equalWith, Datum.bind]
  | .text _, w, hv, hw => by
      cases w with
      | box b => exact hbox _ _ hv hw ⟨b, Or.inr rfl⟩
      | _ => simp [equalWith, Datum.bind]
  | .list items, w, hv, hw => by
      cases w with
      | box b => exact hbox _ _ hv hw ⟨b, Or.inr rfl⟩
      | list others => simpa [equalWith, Datum.bind] using equalAllWith_iff hbox items others hv hw
      | _ => simp [equalWith, Datum.bind]

theorem equalAllWith_iff (hbox : ranking.Decides onBox first second) :
    ∀ items others : List Value, (∀ b ∈ Datum.marksAll items, ranking.rank b < first) →
      (∀ b ∈ Datum.marksAll others, ranking.rank b < second) →
      (equalAllWith onBox items others = true ↔
        Datum.bindAll (fun b => h.unbox (h.read b)) items =
          Datum.bindAll (fun b => h.unbox (h.read b)) others)
  | [], others, _, _ => by cases others <;> simp [equalAllWith, Datum.bindAll]
  | item :: rest, [], _, _ => by simp [equalAllWith, Datum.bindAll]
  | item :: rest, other :: others, hitems, hothers => by
      have hfirst := equalWith_iff hbox item other
        (fun b hb => hitems b (List.mem_append_left _ hb))
        (fun b hb => hothers b (List.mem_append_left _ hb))
      have hrest := equalAllWith_iff hbox rest others
        (fun b hb => hitems b (List.mem_append_right _ hb))
        (fun b hb => hothers b (List.mem_append_right _ hb))
      simp [equalAllWith, Datum.bindAll, hfirst, hrest]

end

end EqualWith

/-- Each time a box is met, the ranks that are left on one side go down. -/
theorem equalTo_iff {n first second : Nat} {v w : Value} (hbound : first + second ≤ n)
    (hv : ranking.Below first v) (hw : ranking.Below second w) :
    h.equalTo n v w = true ↔ h.unbox v = h.unbox w := by
  rw [ranking.unbox_eq_bind v, ranking.unbox_eq_bind w]
  induction n generalizing first second v w with
  | zero =>
      obtain ⟨rfl, rfl⟩ : first = 0 ∧ second = 0 := by omega
      refine ranking.equalWith_iff ?_ v w hv hw
      rintro v w hv hw ⟨b, rfl | rfl⟩
      · exact absurd (hv b List.mem_cons_self) (Nat.not_lt_zero _)
      · exact absurd (hw b List.mem_cons_self) (Nat.not_lt_zero _)
  | succ n ih =>
      refine ranking.equalWith_iff ?_ v w hv hw
      intro v w hv hw hbox
      obtain ⟨a, ha, hunbox⟩ := ranking.content?_eq_some v
      obtain ⟨b, hb, hunbox'⟩ := ranking.content?_eq_some w
      have hcontents : h.onContents (h.equalTo n) v w = h.equalTo n a b := by
        rw [onContents, ha, hb]
      rw [← ranking.unbox_eq_bind, ← ranking.unbox_eq_bind, hcontents, ← hunbox, ← hunbox',
        ranking.unbox_eq_bind a, ranking.unbox_eq_bind b]
      obtain ⟨c, rfl | rfl⟩ := hbox
      · obtain ⟨first, rfl⟩ : ∃ k, first = k + 1 :=
          Nat.exists_eq_add_one.2 (Nat.zero_lt_of_lt (hv c List.mem_cons_self))
        exact ih (by omega) (ranking.below_content_box hv ha) (ranking.below_content hw hb)
      · obtain ⟨second, rfl⟩ : ∃ k, second = k + 1 :=
          Nat.exists_eq_add_one.2 (Nat.zero_lt_of_lt (hw c List.mem_cons_self))
        exact ih (by omega) (ranking.below_content hv ha) (ranking.below_content_box hw hb)

end Ranking

/-- In a heap without cycles two values are equal exactly when they unbox to the same tree. -/
theorem Acyclic.equal_iff (hacyclic : h.Acyclic) (v w : Value) :
    h.equal v w = true ↔ h.unbox v = h.unbox w := by
  obtain ⟨ranking⟩ := hacyclic.ranking
  have henough {n : Nat} (hn : h.size + 1 + (h.size + 1) ≤ n) :
      h.equalTo n v w = true ↔ h.unbox v = h.unbox w :=
    ranking.equalTo_iff hn (ranking.below_size v) (ranking.below_size w)
  rw [equal_iff_exists]
  constructor
  · rintro ⟨n, hequal⟩
    exact (henough (Nat.le_add_left _ n)).1 (equalTo_of_le (Nat.le_add_right n _) hequal)
  · exact fun hsame => ⟨_, (henough (le_refl _)).2 hsame⟩

/-! ## Values without boxes -/

theorem bind_unbox_of_marks (h : Heap) (g : Empty → Value) (v : Value) (hv : v.marks = []) :
    (h.unbox v).bind g = v := by
  unfold unbox
  cases h.size <;> exact v.bind_bind_of_marks _ g hv

theorem not_meetsBox_of_marks {v w : Value} (hv : v.marks = []) (hw : w.marks = []) :
    ¬MeetsBox v w := by
  rintro ⟨b, rfl | rfl⟩
  · cases hv
  · cases hw

/-- Where no box is met, it does not matter how boxes are compared. -/
theorem equalWith_iff_of_marks (onBox : Value → Value → Bool) {v w : Value} (hv : v.marks = [])
    (hw : w.marks = []) : equalWith onBox v w = true ↔ v = w := by
  refine ⟨fun hequal => ?_, fun hsame => hsame ▸ equalWith_refl onBox v⟩
  induction v using Datum.induction generalizing w with
  | atom v hatom =>
      rcases equalWith_iff.1 hequal with ⟨hsame, -⟩ | ⟨hbox, -⟩ | ⟨items, _, rfl, -, -⟩
      · exact hsame
      · exact absurd hbox (not_meetsBox_of_marks hv hw)
      · exact absurd rfl (hatom items)
  | list items ih =>
      rcases equalWith_iff.1 hequal with ⟨hsame, -⟩ | ⟨hbox, -⟩ | ⟨_, others, ⟨⟩, rfl, hall⟩
      · exact hsame
      · exact absurd hbox (not_meetsBox_of_marks hv hw)
      · rw [Datum.list.injEq, ← List.forall₂_eq_eq_eq, List.forall₂_iff_zip]
        obtain ⟨hlength, hall⟩ := List.forall₂_iff_zip.1 hall
        refine ⟨hlength, fun {x y} hxy => ?_⟩
        obtain ⟨hx, hy⟩ := List.of_mem_zip hxy
        exact ih x hx (Datum.marks_of_mem hv hx) (Datum.marks_of_mem hw hy) (hall hxy)

/-- Values without boxes are equal in any heap exactly when they are the same. -/
theorem equal_iff_of_marks (h : Heap) {v w : Value} (hv : v.marks = []) (hw : w.marks = []) :
    h.equal v w = true ↔ v = w := by
  obtain ⟨onBox, honBox⟩ := h.exists_equalWith _
  rw [equal, honBox]
  exact equalWith_iff_of_marks onBox hv hw

end Heap

end Deliberation
