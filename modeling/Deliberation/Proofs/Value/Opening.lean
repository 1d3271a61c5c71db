import Deliberation.Proofs.Value.Unboxing
import Mathlib.Data.Fintype.Card

/-!
# Opening boxes

A box opens to what its content opens to, in any heap and through any number of
boxes: the bound on the number of boxes that are opened is met only by a chain of
boxes that leads back to itself, for a longer chain meets one of its boxes twice.
What a value opens to is never a box.
-/

namespace Deliberation

/-! ## Chains through finitely many places -/

section Chain

variable {α : Type} {size : Nat} {next : α → α} {place : α → Option (Fin size)}

theorem place_iterate_congr (hnext : ∀ a b, place a = place b → place (next a) = place (next b))
    {a b : α} (hsame : place a = place b) (n : Nat) :
    place (next^[n] a) = place (next^[n] b) := by
  induction n with
  | zero => exact hsame
  | succ n ih =>
      rw [Function.iterate_succ_apply', Function.iterate_succ_apply']
      exact hnext _ _ ih

theorem place_iterate_of_le (hstop : ∀ a, place a = none → place (next a) = none) {a : α}
    {n m : Nat} (hnm : n ≤ m) (hend : place (next^[n] a) = none) :
    place (next^[m] a) = none := by
  induction hnm with
  | refl => exact hend
  | step _ ih =>
      rw [Function.iterate_succ_apply']
      exact hstop _ ih

/--
Where a place determines the place that comes next, a chain that comes to an end
does so within as many steps as there are places.
-/
theorem place_iterate_size (hstop : ∀ a, place a = none → place (next a) = none)
    (hnext : ∀ a b, place a = place b → place (next a) = place (next b)) {a : α}
    (hends : ∃ n, place (next^[n] a) = none) : place (next^[size] a) = none := by
  let first := Nat.find hends
  have hbefore (i : Fin first) : (place (next^[i] a)).isSome :=
    Option.isSome_iff_ne_none.2 (Nat.find_min hends i.isLt)
  -- a place that is met twice before the end would put the end off, or have had it before
  have hinjective :
      Function.Injective fun i : Fin first => (place (next^[i] a)).get (hbefore i) := by
    have hless : ∀ i j : Fin first, i < j → place (next^[i] a) ≠ place (next^[j] a) := by
      intro i j hij hsame
      have hlater := place_iterate_congr hnext hsame (first - j)
      rw [← Function.iterate_add_apply, ← Function.iterate_add_apply,
        Nat.sub_add_cancel j.isLt.le, Nat.find_spec hends] at hlater
      exact Nat.find_min hends (by omega) hlater
    intro i j hsame
    by_contra hne
    obtain hij | hji := lt_or_gt_of_ne hne
    · exact hless i j hij (Option.get_inj.1 hsame)
    · exact hless j i hji (Option.get_inj.1 hsame).symm
  have hcard := Fintype.card_le_of_injective _ hinjective
  rw [Fintype.card_fin, Fintype.card_fin] at hcard
  exact place_iterate_of_le hstop hcard (Nat.find_spec hends)

end Chain

namespace Heap

variable {h : Heap} {v w : Value} {b : BoxId}

theorem snapshot_of_not_box (h : Heap) {v : Value} (hv : ∀ b, v ≠ .box b) :
    h.snapshot v = v := by
  unfold snapshot
  cases v with
  | box b => exact absurd rfl (hv b)
  | _ => cases h.size <;> rfl

/-! ## One box after the other -/

/-- Open a box once. -/
def openOne (h : Heap) : Value → Value
  | .box b => h.read b
  | v => v

/-- What a value counts as that is not opened further. -/
def atEnd : Value → Value
  | .box _ => .empty
  | v => v

theorem openBoxes_eq (n : Nat) (v : Value) : h.openBoxes n v = atEnd (h.openOne^[n] v) := by
  induction n generalizing v with
  | zero => cases v <;> rfl
  | succ n ih =>
      cases v with
      | box b => exact ih (h.read b)
      | _ =>
          rw [Function.iterate_fixed rfl]
          rfl

theorem snapshot_ne_box (h : Heap) (v : Value) (b : BoxId) : h.snapshot v ≠ .box b := by
  rw [snapshot, openBoxes_eq]
  cases h.openOne^[h.size] v <;> simp [atEnd]

/-! ## The number of boxes is enough -/

/-- The box that a value is. -/
def boxPlace (h : Heap) : Value → Option (Fin h.size)
  | .box b => if hb : b < h.size then some ⟨b, hb⟩ else none
  | _ => none

theorem boxPlace_openOne (hv : h.boxPlace v = none) : h.boxPlace (h.openOne v) = none := by
  cases v with
  | box b =>
      by_cases hb : b < h.size
      · rw [boxPlace, dif_pos hb] at hv
        cases hv
      · rw [openOne, read_of_size_le (Nat.le_of_not_lt hb)]
        rfl
  | _ => rfl

theorem boxPlace_openOne_congr (hsame : h.boxPlace v = h.boxPlace w) :
    h.boxPlace (h.openOne v) = h.boxPlace (h.openOne w) := by
  cases hw : h.boxPlace w with
  | none => rw [boxPlace_openOne hw, boxPlace_openOne (hsame.trans hw)]
  | some place =>
      have hbox : ∀ u, h.boxPlace u = some place → u = .box place := by
        intro u hu
        cases u with
        | box b =>
            by_cases hb : b < h.size
            · rw [boxPlace, dif_pos hb] at hu
              cases hu
              rfl
            · rw [boxPlace, dif_neg hb] at hu
              cases hu
        | _ => nomatch hu
      rw [hbox v (hsame.trans hw), hbox w hw]

theorem atEnd_openOne (hv : h.boxPlace v = none) : atEnd (h.openOne v) = atEnd v := by
  cases v with
  | box b =>
      by_cases hb : b < h.size
      · rw [boxPlace, dif_pos hb] at hv
        cases hv
      · rw [openOne, read_of_size_le (Nat.le_of_not_lt hb)]
        rfl
  | _ => rfl

theorem atEnd_of_boxPlace (hv : h.boxPlace v ≠ none) : atEnd v = .empty := by
  cases v with
  | box b => rfl
  | _ => exact absurd rfl hv

theorem openBoxes_size_succ (v : Value) : h.openBoxes (h.size + 1) v = h.openBoxes h.size v := by
  rw [openBoxes_eq, openBoxes_eq, Function.iterate_succ_apply']
  by_cases hends : ∃ n, h.boxPlace (h.openOne^[n] v) = none
  · refine atEnd_openOne (place_iterate_size ?_ ?_ hends)
    · exact fun _ => boxPlace_openOne
    · exact fun _ _ => boxPlace_openOne_congr
  · have hbox := not_exists.1 hends
    have hlast := hbox (h.size + 1)
    rw [Function.iterate_succ_apply'] at hlast
    rw [atEnd_of_boxPlace (hbox h.size), atEnd_of_boxPlace hlast]

theorem snapshot_box (h : Heap) (b : BoxId) : h.snapshot (.box b) = h.snapshot (h.read b) := by
  rw [snapshot, ← openBoxes_size_succ]
  rfl

/-! ## Values wrapped in boxes -/

/-- A value, a box that holds it, a box that holds such a box, and so on. -/
inductive Wraps (h : Heap) (v : Value) : Value → Prop
  | self : Wraps h v v
  | box {b : BoxId} (inside : Wraps h v (h.read b)) : Wraps h v (.box b)

theorem Wraps.snapshot_eq (hw : h.Wraps v w) : h.snapshot v = h.snapshot w := by
  induction hw with
  | self => rfl
  | box inside ih => rw [ih, snapshot_box]

end Heap

end Deliberation
