import Deliberation.Proofs.Belief.Changes
import Deliberation.Proofs.Belief.Normal
import Deliberation.Proofs.Belief.Walking
import Deliberation.Proofs.Value.Unboxing

/-!
# Stored literals under changing boxes

A stored literal shares its boxes with the literal that was added, and what is in
them may change at any time.  It is looked up by its bucket and by equality, and
both sides of the comparison see the same boxes: a literal that was stored stays
found, whatever the boxes hold, until it is removed together with all that have
become equal to it.
-/

namespace Deliberation

/-! ## Changes of boxes -/

/-- A change of the boxes: a new box, or a new content for the box that a value is. -/
inductive BoxChange where
  | make (content : Value)
  | replace (target content : Value)

namespace Heap

/-- The boxes after a change.  Nothing is replaced in a value that is not a box. -/
def change (heap : Heap) : BoxChange → Heap
  | .make content => (heap.alloc content).1
  | .replace target content =>
      match heap.replace target content with
      | .ok changed => changed
      | .error _ => heap

/-- The boxes after some changes, one after the other. -/
def changed (heap : Heap) (changes : List BoxChange) : Heap := changes.foldl change heap

end Heap

/-! ## Literals in their view -/

theorem Literal.equal_refl (heap : Heap) (l : Literal) : l.equal heap l = true :=
  (Literal.equal_iff_content heap l l).2 rfl

/-- Literals that are kept in one view are equal when they are seen so from above it. -/
theorem Literal.equal_under (heap : Heap) (view : Path) (l m : Literal) :
    (l.under view).equal heap (m.under view) = l.equal heap m := by
  have hfunctor : (l.under view).functor = (m.under view).functor ↔ l.functor = m.functor := by
    obtain ⟨⟨⟨front⟩, name⟩, arguments, annotations, negated, marked⟩ := l
    obtain ⟨⟨⟨front'⟩, name'⟩, arguments', annotations', negated', marked'⟩ := m
    simp only [under, Symbol.mk.injEq, Path.mk.injEq]
    exact and_congr_left' ((Path.mk.injEq ..).to_iff.trans (List.append_right_inj view.segments))
  rw [Bool.eq_iff_iff, equal_iff, equal_iff, hfunctor]
  rfl

/-- A literal that was kept shows whether it is equal to a normal one under the path of its view. -/
theorem Literal.Normal.equal_inView {l : Literal} (hl : l.Normal) (heap : Heap) (kept : Literal) :
    kept.equal heap l.inView = (kept.under l.functor.view).equal heap l := by
  rw [← equal_under heap l.functor.view, under_inView hl]

namespace BeliefGraph

variable {g after : BeliefGraph} {v target : ViewId} {l : Literal}

/-! ## What is added, and what is removed -/

/-- A literal that was added is in its bucket of the view that its functor leads to. -/
theorem stored_of_add (hsound : g.Sound) (hv : v < g.size) {generator : Option ViewGenerator}
    (hgenerator : ∀ generate ∈ generator, Generates generate) {heap : Heap}
    (hadd : g.add heap v l generator = .ok (true, after)) :
    ∃ target, after.childAt? v l.functor.view.segments = some target ∧ target < after.size ∧
      l.inView ∈ after.held target (bucketOf l.inView) := by
  cases hwalk : g.descend v l.functor.view generator with
  | error e =>
      rw [add, hwalk] at hadd
      cases hadd
  | ok found =>
      obtain ⟨middle, target⟩ := found
      obtain ⟨-, -, htarget⟩ :=
        grown_of_descendFrom hgenerator hsound.fenced_zero (Nat.zero_le _) hv hwalk
      have hway := (walked_of_descendFrom hgenerator hsound hv hwalk).childAt?
      rw [add_of_descend hwalk] at hadd
      dsimp only at hadd
      split at hadd
      · cases hadd
      · cases hadd
        refine ⟨target, ?_, ?_, ?_⟩
        · rw [childAt?_congr (child?_setHeld middle htarget _ _)]
          exact hway
        · rw [size_setHeld]
          exact htarget
        · rw [held_setHeld middle htarget, if_pos ⟨rfl, rfl⟩]
          exact List.mem_append_right _ List.mem_cons_self

variable (hway : g.childAt? v l.functor.view.segments = some target)

include hway

/-- A literal in its bucket is found with any boxes. -/
theorem containsLiteral_of_mem (heap : Heap)
    (hmem : l.inView ∈ g.held target (bucketOf l.inView)) :
    g.containsLiteral heap v l = true := by
  rw [containsLiteral_of_childAt? hway]
  exact List.any_eq_true.2 ⟨l.inView, hmem, Literal.equal_refl heap _⟩

/-- A removal takes the literals out of a bucket that equal the one removed, and no others. -/
theorem remove_frame (htarget : target < g.size) (hl : l.Normal) {heap : Heap}
    (hheld : g.containsLiteral heap v l = true) :
    ∃ left, g.remove heap v l = (true, left) ∧
      left.containsLiteral heap v l = false ∧
      (∀ u way, left.childAt? u way = g.childAt? u way) ∧
      ∀ u bucket, left.held u bucket =
        if u = target ∧ bucket = ⟨l.negated, l.functor.name⟩ then
          (g.held u bucket).filter fun kept => !(kept.under l.functor.view).equal heap l
        else g.held u bucket := by
  have hbucket := Literal.bucketOf_inView hl
  have hchild := childAt?_congr (child?_setHeld g htarget (bucketOf l.inView)
    ((g.held target (bucketOf l.inView)).filter fun kept => !kept.equal heap l.inView))
  refine ⟨_, remove_of_childAt? hway hheld, ?_, hchild, ?_⟩
  · rw [containsLiteral_of_childAt? ((hchild v _).trans hway), held_setHeld g htarget,
      if_pos ⟨rfl, rfl⟩, List.any_eq_false]
    intro kept hkept
    simpa using (List.mem_filter.1 hkept).2
  · intro u bucket
    rw [held_setHeld g htarget, hbucket]
    by_cases hplace : u = target ∧ bucket = ⟨l.negated, l.functor.name⟩
    · obtain ⟨rfl, rfl⟩ := hplace
      simp only [hl.equal_inView heap, and_self, if_true]
    · rw [if_neg hplace, if_neg fun h => hplace ⟨h.1.symm, h.2.symm⟩]

omit hway

/-! ## Stored literals -/

/--
A literal that was added is still found after any changes of boxes, is not added
again, and can be removed.  Its removal leaves all views where they are, and of
the literals only those are gone that are equal to it by then.  Changes that put a
box into itself are left out: a comparison with what is kept beside the literal
need not come to an end there.
-/
theorem added_survives_changes (hbuilt : Built g) (hv : v < g.size)
    {generator : Option ViewGenerator} (hprovided : Provided generator) (hl : l.Normal)
    {heap : Heap} (hadd : g.add heap v l generator = .ok (true, after))
    (changes : List BoxChange) (_hacyclic : (heap.changed changes).Acyclic) :
    let later := heap.changed changes
    after.containsLiteral later v l = true ∧
      (∀ generator, after.add later v l generator = .ok (false, after)) ∧
      ∃ left, after.remove later v l = (true, left) ∧
        left.containsLiteral later v l = false ∧
        left.remove later v l = (false, left) ∧
        (∀ u way, left.childAt? u way = after.childAt? u way) ∧
        ∃ target, after.childAt? v l.functor.view.segments = some target ∧
          ∀ u bucket, left.held u bucket =
            if u = target ∧ bucket = ⟨l.negated, l.functor.name⟩ then
              (after.held u bucket).filter fun kept =>
                !(kept.under l.functor.view).equal later l
            else after.held u bucket := by
  intro later
  obtain ⟨target, hway, htarget, hmem⟩ := stored_of_add hbuilt.sound hv hprovided.generates hadd
  have hheld := containsLiteral_of_mem hway later hmem
  obtain ⟨left, hremove, hgone, hviews, hkept⟩ := remove_frame hway htarget hl hheld
  exact ⟨hheld, add_of_contains hheld, left, hremove, hgone, remove_of_not_contains hgone,
    hviews, target, hway, hkept⟩

/-- Two boxes with different numbers. -/
def counts : Heap := ⟨#[.int 1, .int 2]⟩

/-- A literal around a box. -/
def counter (view : Path) (b : BoxId) : Literal :=
  ⟨⟨view, "f"⟩, [.raw (.box b)], [], false, false⟩

/-- A root with a view `a` that keeps such literals. -/
def counters (boxes : List BoxId) : BeliefGraph :=
  ⟨#[⟨"", ⟨[("a", 1)]⟩, {}⟩,
    ⟨"a", {}, ⟨[(⟨false, "f"⟩, boxes.map (counter .empty))]⟩⟩]⟩

/-- Two literals with boxes are stored; a change makes them equal, and removing one removes both. -/
theorem added_survives_changes_twin :
    let later := counts.changed [.replace (.box 1) (.int 1)]
    let l := counter ⟨["a"]⟩ 1
    (counters [0]).add counts root l (some blank) = .ok (true, counters [0, 1]) ∧
      (counters [0, 1]).containsLiteral later root l = true ∧
      ∃ left, (counters [0, 1]).remove later root l = (true, left) ∧
        left.containsLiteral later root l = false ∧ left.held 1 ⟨false, "f"⟩ = [] := by
  intro later l
  have hbuilt : Built (counters [0]) :=
    .add {} (counter ⟨["a"]⟩ 0) (.create "" .empty) Nat.one_pos .blank rfl
  have hadd : (counters [0]).add counts root (counter ⟨["a"]⟩ 1) (some blank) =
      .ok (true, counters [0, 1]) := rfl
  have hacyclic : later.Acyclic := by
    refine ⟨fun _ => 0, fun b c hc => ?_⟩
    match b with
    | 0 => cases hc
    | 1 => cases hc
    | b + 2 => cases hc
  obtain ⟨hheld, -, left, hremove, hgone, -, -, target, hway, hkept⟩ :=
    added_survives_changes hbuilt Nat.two_pos .blank (by decide) hadd
      [.replace (.box 1) (.int 1)] hacyclic
  obtain rfl : 1 = target := Option.some.inj hway
  refine ⟨hadd, hheld, left, hremove, hgone, ?_⟩
  rw [hkept, if_pos ⟨rfl, rfl⟩]
  exact List.filter_eq_nil_iff.2 (by decide)

end BeliefGraph

end Deliberation
