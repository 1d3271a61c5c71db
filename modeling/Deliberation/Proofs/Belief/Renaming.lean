import Deliberation.Belief.Listing
import Deliberation.Proofs.Table
import Deliberation.Proofs.Term.Renaming

/-!
# Renaming the variables of beliefs

Views, names of views and buckets have nothing to do with the names of variables.
So a graph with renamed beliefs is walked as before, and looking up, adding and
removing a renamed belief does with it what was done with the belief itself.
-/

namespace Deliberation

section Literals

variable (f : Path → Path) (l : Literal)

theorem Literal.under_rename (view : Path) : (l.rename f).under view = (l.under view).rename f := by
  rw [Literal.rename_eq, Literal.rename_eq]
  rfl

theorem Literal.inView_rename : (l.rename f).inView = l.inView.rename f := by
  unfold Literal.inView
  rw [Literal.functor_rename]
  cases Symbol.ofPath? (Path.parse l.functor.name) with
  | none => rfl
  | some symbol =>
      rw [Literal.rename_eq, Literal.rename_eq]

end Literals

/-- Rename the variables of the beliefs in a view. -/
def View.rename (f : Path → Path) (node : View) : View :=
  { node with buckets := node.buckets.mapValues (List.map (Literal.rename f)) }

namespace BeliefGraph

/-- Rename the variables of all beliefs. -/
def rename (f : Path → Path) (g : BeliefGraph) : BeliefGraph := ⟨g.views.map (View.rename f)⟩

section Renaming

variable {f : Path → Path}

theorem rename_id (g : BeliefGraph) : g.rename id = g := by
  have hliteral : Literal.rename id = id := funext Literal.rename_id
  have hview : View.rename id = id := by
    funext node
    simp [View.rename, Table.mapValues, hliteral]
  rw [rename, hview, Array.map_id]

theorem view_rename (g : BeliefGraph) (v : ViewId) : (g.rename f).view v = (g.view v).rename f := by
  unfold view rename
  rw [Array.getD_eq_getD_getElem?, Array.getD_eq_getD_getElem?, Array.getElem?_map]
  cases g.views[v]? <;> rfl

theorem children_rename (g : BeliefGraph) (v : ViewId) :
    ((g.rename f).view v).children = (g.view v).children := by
  rw [view_rename]
  rfl

theorem held_rename (g : BeliefGraph) (v : ViewId) (bucket : Bucket) :
    (g.rename f).held v bucket = (g.held v bucket).map (Literal.rename f) := by
  rw [held, view_rename, View.rename, Table.get?_mapValues, held]
  cases (g.view v).buckets.get? bucket <;> rfl

theorem create_rename (g : BeliefGraph) (name : String) :
    (g.rename f).create name = ((g.create name).1.rename f, (g.create name).2) := by
  unfold create rename
  rw [Array.map_push, Array.size_map]
  rfl

@[simp]
theorem rooted_rename : rooted.rename f = rooted := by
  have hempty : BeliefGraph.rename f {} = {} := by simp [rename]
  have hcreate := create_rename (f := f) {} ""
  rw [hempty] at hcreate
  exact (congrArg Prod.fst hcreate).symm

theorem update_rename (g : BeliefGraph) (v : ViewId) {change other : View → View}
    (h : ∀ node : View, other (node.rename f) = (change node).rename f) :
    (g.rename f).update v other = (g.update v change).rename f := by
  unfold update rename
  rw [BeliefGraph.mk.injEq]
  refine Array.ext (by simp) fun i hleft hright => ?_
  simp only [Array.getElem_modify, Array.getElem_map]
  split
  · exact h _
  · rfl

theorem attach_rename (g : BeliefGraph) (v : ViewId) (name : String) (child : ViewId) :
    (g.rename f).attach v name child = (g.attach v name child).rename f :=
  update_rename g v fun _ => rfl

theorem setHeld_rename (g : BeliefGraph) (v : ViewId) (bucket : Bucket) (literals : List Literal) :
    (g.rename f).setHeld v bucket (literals.map (Literal.rename f)) =
      (g.setHeld v bucket literals).rename f := by
  refine update_rename g v fun node => ?_
  unfold View.rename
  dsimp only
  rw [List.isEmpty_map]
  split
  · rw [Table.erase_mapValues]
  · rw [Table.insert_mapValues]

/-! ## Walking down -/

/-- The views that are made on the way do not depend on the beliefs. -/
theorem descendFrom_rename {generator : Option ViewGenerator}
    (hgenerator : ∀ generate ∈ generator, ∀ g name walked,
      generate (g.rename f) name walked =
        ((generate g name walked).1.rename f, (generate g name walked).2))
    (way : List String) (walked : Path) (g : BeliefGraph) (v : ViewId) :
    descendFrom generator way walked (g.rename f) v =
      (descendFrom generator way walked g v).map fun found => (found.1.rename f, found.2) := by
  induction way generalizing walked g v with
  | nil => rfl
  | cons name rest ih =>
      unfold descendFrom
      rw [children_rename]
      cases (g.view v).children.get? name with
      | some child => exact ih _ _ _
      | none =>
          cases generator with
          | none => rfl
          | some generate =>
              dsimp only
              rw [hgenerator generate rfl]
              dsimp only
              rw [attach_rename]
              exact ih _ _ _

theorem locate?_rename (g : BeliefGraph) (v : ViewId) (path : Path) :
    (g.rename f).locate? v path = g.locate? v path := by
  unfold locate? descend
  rw [descendFrom_rename fun _ h => absurd h (Option.not_mem_none _)]
  cases descendFrom none path.segments .empty g v <;> rfl

theorem matching_rename (g : BeliefGraph) (v : ViewId) (negated : Bool) (functor : Path) :
    (g.rename f).matching v negated functor =
      (g.matching v negated functor).map (Literal.rename f) := by
  unfold matching
  rw [locate?_rename]
  cases g.locate? v functor.parent with
  | none => rfl
  | some target =>
      dsimp only
      rw [held_rename, List.map_map, List.map_map]
      exact List.map_congr_left fun l _ => l.under_rename f functor.parent

/-! ## Changes -/

theorem bucketOf_rename (l : Literal) : bucketOf (l.rename f) = bucketOf l := by
  rw [bucketOf, Literal.negated_rename, Literal.functor_rename, bucketOf]

theorem add_rename (hf : Function.Injective f) (heap : Heap) (g : BeliefGraph) (v : ViewId)
    (l : Literal) :
    (g.rename f).add heap v (l.rename f) (some blank) =
      (g.add heap v l (some blank)).map fun answer => (answer.1, answer.2.rename f) := by
  have hblank : ∀ generate ∈ some blank, ∀ g name walked, generate (rename f g) name walked =
      ((generate g name walked).1.rename f, (generate g name walked).2) := by
    rintro generate ⟨⟩ g name walked
    exact create_rename g name
  unfold add descend
  rw [Literal.inView_rename, Literal.functor_rename]
  dsimp only
  rw [bucketOf_rename, descendFrom_rename hblank]
  cases descendFrom (some blank) l.functor.view.segments .empty g v with
  | error e => rfl
  | ok found =>
      obtain ⟨made, target⟩ := found
      have hany : ((made.rename f).held target (bucketOf l.inView)).any
          (fun other => other.equal heap (l.inView.rename f)) =
          (made.held target (bucketOf l.inView)).any fun other => other.equal heap l.inView := by
        rw [held_rename, List.any_map]
        congr 1
        funext other
        exact Literal.equal_rename hf heap other l.inView
      dsimp only [Except.map, bind, Except.bind]
      rw [hany]
      split
      · rfl
      · have hset := setHeld_rename (f := f) made target (bucketOf l.inView)
          (made.held target (bucketOf l.inView) ++ [l.inView])
        rw [List.map_append, List.map_singleton, ← held_rename] at hset
        rw [hset]
        rfl

theorem remove_rename (hf : Function.Injective f) (heap : Heap) (g : BeliefGraph) (v : ViewId)
    (l : Literal) :
    (g.rename f).remove heap v (l.rename f) =
      ((g.remove heap v l).1, (g.remove heap v l).2.rename f) := by
  unfold remove
  rw [Literal.inView_rename, Literal.functor_rename, locate?_rename]
  dsimp only
  rw [bucketOf_rename]
  cases g.locate? v l.functor.view with
  | none => rfl
  | some target =>
      have hkept : ((g.rename f).held target (bucketOf l.inView)).filter
          (fun other => !other.equal heap (l.inView.rename f)) =
          ((g.held target (bucketOf l.inView)).filter
            fun other => !other.equal heap l.inView).map (Literal.rename f) := by
        rw [held_rename, List.filter_map]
        congr 2
        funext other
        exact congrArg not (Literal.equal_rename hf heap other l.inView)
      dsimp only
      rw [hkept, held_rename, List.length_map, List.length_map, setHeld_rename]
      split <;> rfl

end Renaming

end BeliefGraph

end Deliberation
