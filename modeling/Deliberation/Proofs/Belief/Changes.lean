import Deliberation.Proofs.Belief.Tree
import Deliberation.Proofs.Path.Normal

/-!
# Changing a tree of beliefs

Adding, removing and taking out views, each described by the views that are left
and by what every bucket holds afterwards.  A change that reports nothing new or
nothing found leaves the tree as it was, and reports that exactly when the
literal was held, or not held, before.
-/

namespace Deliberation

namespace BeliefGraph

variable {g : BeliefGraph} {heap : Heap} {l : Literal}

/-! ## Reading -/

theorem containsLiteral_eq (heap : Heap) (g : BeliefGraph) (l : Literal) :
    g.containsLiteral heap root l =
      (g.heldAt l.functor.view.segments (bucketOf l.inView)).any
        fun other => other.equal heap l.inView := by
  unfold containsLiteral heldAt
  rw [locate?_eq_childAt?]
  cases g.childAt? root l.functor.view.segments <;> rfl

theorem containsLiteral_of_childAt? {v target : ViewId}
    (hway : g.childAt? v l.functor.view.segments = some target) :
    g.containsLiteral heap v l =
      (g.held target (bucketOf l.inView)).any fun other => other.equal heap l.inView := by
  unfold containsLiteral
  rw [locate?_eq_childAt?, hway]

/-- A literal is held in a view that is there. -/
theorem childAt?_of_contains {v : ViewId} (hheld : g.containsLiteral heap v l = true) :
    ∃ target, g.childAt? v l.functor.view.segments = some target := by
  unfold containsLiteral at hheld
  rw [locate?_eq_childAt?] at hheld
  cases hway : g.childAt? v l.functor.view.segments with
  | none =>
      rw [hway] at hheld
      cases hheld
  | some target => exact ⟨target, rfl⟩

theorem containsView_eq (g : BeliefGraph) (p : Path) :
    g.containsView root p = (g.childAt? root p.segments).isSome := by
  rw [containsView, locate?_eq_childAt?]

theorem matching_eq (g : BeliefGraph) (negated : Bool) (functor : Path) :
    g.matching root negated functor =
      (g.heldAt functor.parent.segments ⟨negated, functor.last⟩).map
        (Literal.under functor.parent) := by
  unfold matching heldAt
  rw [locate?_eq_childAt?]
  cases g.childAt? root functor.parent.segments <;> rfl

/-! ## Adding -/

/-- What a graph has become when a literal was added to its view. -/
structure Added (g : BeliefGraph) (l : Literal) (after : BeliefGraph) : Prop where
  tree : after.IsTree
  views : ∀ other, (after.childAt? root other).isSome ↔
    (g.childAt? root other).isSome ∨ other <+: l.functor.view.segments
  held : ∀ way bucket, after.heldAt way bucket =
    if l.functor.view.segments = way ∧ bucketOf l.inView = bucket then
      g.heldAt way bucket ++ [l.inView]
    else g.heldAt way bucket

theorem add_of_descend {after : BeliefGraph} {v target : ViewId}
    {generator : Option ViewGenerator}
    (hwalk : g.descend v l.functor.view generator = .ok (after, target)) :
    g.add heap v l generator =
      let literals := after.held target (bucketOf l.inView)
      if literals.any fun other => other.equal heap l.inView then .ok (false, after)
      else .ok (true, after.setHeld target (bucketOf l.inView) (literals ++ [l.inView])) := by
  simp only [add, hwalk]
  rfl

theorem add_of_contains {v : ViewId} (hheld : g.containsLiteral heap v l = true)
    (generator : Option ViewGenerator) : g.add heap v l generator = .ok (false, g) := by
  obtain ⟨target, hway⟩ := childAt?_of_contains hheld
  rw [containsLiteral_of_childAt? hway] at hheld
  rw [add_of_descend (descendFrom_of_childAt? hway generator .empty)]
  exact if_pos hheld

/-- A literal that is not held goes behind the others of its bucket, once its view is open. -/
theorem add_of_opened {after : BeliefGraph} {target : ViewId} {generator : Option ViewGenerator}
    (hheld : g.containsLiteral heap root l = false)
    (hwalk : g.descend root l.functor.view generator = .ok (after, target))
    (hopened : Opened g l.functor.view.segments after target) :
    ∃ stored, g.add heap root l generator = .ok (true, stored) ∧ Added g l stored := by
  have hbucket : after.held target (bucketOf l.inView) =
      g.heldAt l.functor.view.segments (bucketOf l.inView) := by
    rw [← heldAt_of_childAt? hopened.target, hopened.content]
  rw [containsLiteral_eq, ← hbucket] at hheld
  refine ⟨after.setHeld target (bucketOf l.inView)
    (after.held target (bucketOf l.inView) ++ [l.inView]), ?_, ?_, ?_, ?_⟩
  · rw [add_of_descend hwalk]
    exact if_neg (by rw [hheld]; exact Bool.false_ne_true)
  · exact hopened.tree.setHeld hopened.target _ _
  · intro other
    rw [childAt?_setHeld hopened.tree hopened.target]
    exact hopened.views other
  · intro way bucket
    rw [heldAt_setHeld hopened.tree hopened.target, hopened.content]
    by_cases hplace : l.functor.view.segments = way ∧ bucketOf l.inView = bucket
    · rw [if_pos hplace, if_pos hplace, hbucket]
      obtain ⟨rfl, rfl⟩ := hplace
      rfl
    · rw [if_neg hplace, if_neg hplace]

theorem add_blank_of_not_contains (htree : g.IsTree)
    (hheld : g.containsLiteral heap root l = false) :
    ∃ stored, g.add heap root l (some blank) = .ok (true, stored) ∧ Added g l stored := by
  have hroot : g.childAt? root [] = some root := rfl
  obtain ⟨after, target, hwalk, hopened⟩ :=
    descendFrom_blank htree hroot l.functor.view.segments .empty
  exact add_of_opened hheld hwalk hopened

theorem add_none_of_not_contains (htree : g.IsTree)
    (hview : g.containsView root l.functor.view = true)
    (hheld : g.containsLiteral heap root l = false) :
    ∃ stored, g.add heap root l none = .ok (true, stored) ∧ Added g l stored := by
  rw [containsView_eq] at hview
  obtain ⟨v, hway⟩ := Option.isSome_iff_exists.1 hview
  exact add_of_opened hheld (descendFrom_of_childAt? hway none .empty) (Opened.refl htree hway)

theorem add_none_of_missing (hsegments : "" ∉ l.functor.view.segments) {missing : List String}
    (hmissing : l.functor.view.segments.inits.find?
      (fun first => (g.childAt? root first).isNone) = some missing) :
    g.add heap root l none = .error (.viewNotFound (Path.mk missing).text) := by
  have hwalk : g.descend root l.functor.view none =
      .error (.viewNotFound (Path.mk ([] ++ missing)).text) :=
    descendFrom_missing hsegments hmissing .empty
  simp only [add, hwalk]
  rfl

/-! ## Removing -/

/-- What a graph has become when all literals equal to one were removed from its view. -/
structure Removed (heap : Heap) (g : BeliefGraph) (l : Literal) (after : BeliefGraph) : Prop where
  tree : after.IsTree
  views : ∀ other, after.childAt? root other = g.childAt? root other
  held : ∀ way bucket, after.heldAt way bucket =
    if l.functor.view.segments = way ∧ bucketOf l.inView = bucket then
      (g.heldAt way bucket).filter fun other => !other.equal heap l.inView
    else g.heldAt way bucket

theorem remove_of_not_contains {v : ViewId} (hheld : g.containsLiteral heap v l = false) :
    g.remove heap v l = (false, g) := by
  unfold remove
  rw [locate?_eq_childAt?]
  cases hway : g.childAt? v l.functor.view.segments with
  | none => rfl
  | some target =>
      rw [containsLiteral_of_childAt? hway] at hheld
      have hkept : (g.held target (bucketOf l.inView)).filter
          (fun other => !other.equal heap l.inView) = g.held target (bucketOf l.inView) := by
        refine List.filter_eq_self.2 ?_
        intro other hother
        simpa using List.any_eq_false.1 hheld other hother
      simp only [hkept, if_pos]

/-- A literal that is held is removed from its bucket with all that are equal to it. -/
theorem remove_of_childAt? {v target : ViewId}
    (hway : g.childAt? v l.functor.view.segments = some target)
    (hheld : g.containsLiteral heap v l = true) :
    g.remove heap v l = (true, g.setHeld target (bucketOf l.inView)
      ((g.held target (bucketOf l.inView)).filter fun other => !other.equal heap l.inView)) := by
  rw [containsLiteral_of_childAt? hway] at hheld
  unfold remove
  rw [locate?_eq_childAt?, hway]
  refine if_neg fun hlength => ?_
  obtain ⟨other, hother, hequal⟩ := List.any_eq_true.1 hheld
  have hall := List.length_filter_eq_length_iff.1 hlength other hother
  rw [hequal] at hall
  cases hall

theorem remove_of_contains (htree : g.IsTree) (hheld : g.containsLiteral heap root l = true) :
    ∃ kept, g.remove heap root l = (true, kept) ∧ Removed heap g l kept := by
  obtain ⟨v, hway⟩ := childAt?_of_contains hheld
  refine ⟨_, remove_of_childAt? hway hheld, ?_, ?_, ?_⟩
  · exact htree.setHeld hway _ _
  · exact childAt?_setHeld htree hway _ _
  · intro way bucket
    rw [heldAt_setHeld htree hway]
    by_cases hplace : l.functor.view.segments = way ∧ bucketOf l.inView = bucket
    · rw [if_pos hplace, if_pos hplace]
      obtain ⟨rfl, rfl⟩ := hplace
      rw [heldAt_of_childAt? hway]
    · rw [if_neg hplace, if_neg hplace]

/-! ## Taking out a view -/

/-- What a graph has become when the view at a path was taken out with all below it. -/
structure Cleared (g : BeliefGraph) (p : Path) (after : BeliefGraph) : Prop where
  tree : after.IsTree
  views : ∀ other, after.childAt? root other =
    if p.segments <+: other then none else g.childAt? root other
  held : ∀ way bucket, after.heldAt way bucket =
    if p.segments <+: way then [] else g.heldAt way bucket

theorem removeView_of_not_contains {p : Path} (hview : g.containsView root p = false) :
    g.removeView root p = (false, g) := by
  rw [containsView_eq] at hview
  unfold removeView
  cases hempty : p.isEmpty with
  | true => rfl
  | false =>
      rw [← Path.parent_concat_last hempty, childAt?_concat] at hview
      rw [if_neg Bool.false_ne_true, locate?_eq_childAt?]
      cases hway : g.childAt? root p.parent.segments with
      | none => rfl
      | some parent =>
          rw [hway] at hview
          exact if_neg (by rw [Table.contains]; simpa [child?] using hview)

theorem removeView_of_contains (htree : g.IsTree) {p : Path} (hempty : p.isEmpty = false)
    (hview : g.containsView root p = true) :
    ∃ kept, g.removeView root p = (true, kept) ∧ Cleared g p kept := by
  rw [containsView_eq, ← Path.parent_concat_last hempty, childAt?_concat] at hview
  unfold removeView
  rw [hempty, if_neg Bool.false_ne_true, locate?_eq_childAt?]
  cases hway : g.childAt? root p.parent.segments with
  | none =>
      rw [hway] at hview
      cases hview
  | some parent =>
      rw [hway] at hview
      refine ⟨g.detach parent p.last, if_pos hview, htree.detach hway _, ?_, ?_⟩
      · intro other
        rw [childAt?_detach htree hway, Path.parent_concat_last hempty]
      · intro way bucket
        rw [heldAt_detach htree hway, Path.parent_concat_last hempty]

end BeliefGraph

end Deliberation
