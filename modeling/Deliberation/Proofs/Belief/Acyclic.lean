import Deliberation.Belief.Listing
import Deliberation.Belief.OfDocument
import Deliberation.Proofs.Belief.Tree
import Deliberation.Proofs.Table
import Mathlib.Data.Finset.Card
import Mathlib.Logic.Relation

/-!
# View graphs without cycles

A view may hang below several others, so that the views make up a graph.  Two
facts about it are kept by every change: handles of children name views, and no
view lies below itself.  A graph with these two facts has ways of bounded length
only, and so the bound that is given to a traversal is never reached.

A change that makes views makes them above all handles that were there before,
and the new views lead to new views only.  Hanging such a view below an old one
closes no cycle.  An old view is hung below another one only after a search has
shown that it does not lead there.
-/

namespace Deliberation

open Relation

namespace Table

variable {κ ν : Type}

theorem mem_values_insert [Ord κ] {t : Table κ ν} {key : κ} {value other : ν}
    (h : other ∈ (t.insert key value).values) : other = value ∨ other ∈ t.values := by
  obtain ⟨entry, hentry, rfl⟩ := List.mem_map.1 h
  rcases mem_place hentry with hnew | hold
  · exact Or.inl (congrArg Prod.snd hnew)
  · exact Or.inr (List.mem_map_of_mem hold)

theorem mem_values_erase [DecidableEq κ] {t : Table κ ν} {key : κ} {value : ν}
    (h : value ∈ (t.erase key).values) : value ∈ t.values := by
  obtain ⟨entry, hentry, rfl⟩ := List.mem_map.1 h
  exact List.mem_map_of_mem (List.mem_of_mem_filter hentry)

theorem mem_values_of_get? [DecidableEq κ] {t : Table κ ν} {key : κ} {value : ν}
    (h : t.get? key = some value) : value ∈ t.values := by
  obtain ⟨entries⟩ := t
  unfold get? at h
  unfold values
  induction entries with
  | nil => cases h
  | cons entry rest ih =>
      obtain ⟨k, v⟩ := entry
      unfold find at h
      split at h
      · cases h
        exact List.mem_cons_self
      · exact List.mem_cons_of_mem _ (ih h)

end Table

/-! ## Heights among finitely many places -/

section Height

variable {r : Nat → Nat → Prop} {n a b : Nat}

open Classical in
/-- How many numbers below a bound are reached from a number by some steps. -/
noncomputable def height (r : Nat → Nat → Prop) (n a : Nat) : Nat :=
  ((Finset.range n).filter (TransGen r a)).card

/-- A step to a number that does not lead back to itself leads down. -/
theorem height_lt (h : r a b) (hb : b < n) (hacyclic : ¬ TransGen r b b) :
    height r n b < height r n a := by
  refine Finset.card_lt_card ((Finset.ssubset_iff_of_subset ?_).2 ⟨b, ?_, ?_⟩)
  · intro c hc
    simp only [Finset.mem_filter] at hc ⊢
    exact ⟨hc.1, TransGen.head h hc.2⟩
  · simp only [Finset.mem_filter, Finset.mem_range]
    exact ⟨hb, TransGen.single h⟩
  · simp only [Finset.mem_filter, not_and]
    exact fun _ => hacyclic

/-- A number that does not lead back to itself is no higher than there are others. -/
theorem height_lt_bound (ha : a < n) (hacyclic : ¬ TransGen r a a) : height r n a < n := by
  classical
  have hproper : (Finset.range n).filter (TransGen r a) ⊂ Finset.range n := by
    refine (Finset.ssubset_iff_of_subset (Finset.filter_subset _ _)).2 ⟨a, ?_, ?_⟩
    · exact Finset.mem_range.2 ha
    · simp only [Finset.mem_filter, not_and]
      exact fun _ => hacyclic
  have hcard := Finset.card_lt_card hproper
  rwa [Finset.card_range] at hcard

end Height

namespace BeliefGraph

/-- Whether a view hangs directly below another one. -/
def Child (g : BeliefGraph) (v w : ViewId) : Prop := w ∈ (g.view v).children.values

/-- The children of views are views, and no view lies below itself. -/
structure Sound (g : BeliefGraph) : Prop where
  closed : ∀ {v w}, g.Child v w → w < g.size
  acyclic : ∀ v, ¬ TransGen g.Child v v

theorem Child.lt_size {g : BeliefGraph} {v w : ViewId} (h : g.Child v w) : v < g.size := by
  by_contra hv
  rw [Child, view_of_size_le g (Nat.le_of_not_lt hv)] at h
  cases h

theorem child_of_child? {g : BeliefGraph} {v w : ViewId} {name : String}
    (h : (g.view v).children.get? name = some w) : g.Child v w :=
  Table.mem_values_of_get? h

/-! ## The height of a view -/

open Classical in
/-- The number of views below a view. -/
noncomputable def rank (g : BeliefGraph) (v : ViewId) : Nat :=
  ((Finset.range g.size).filter (TransGen g.Child v)).card

section Rank

variable {g : BeliefGraph} (hsound : g.Sound)

include hsound

/-- All that is below a child is below its parent, and so is the child. -/
theorem Sound.rank_lt {v w : ViewId} (h : g.Child v w) : g.rank w < g.rank v :=
  height_lt h (hsound.closed h) (hsound.acyclic w)

theorem Sound.rank_lt_size {v : ViewId} (hv : v < g.size) : g.rank v < g.size :=
  height_lt_bound hv (hsound.acyclic v)

/-- Going from a view to a child comes to an end. -/
theorem Sound.wellFounded : WellFounded fun child v => g.Child v child :=
  Subrelation.wf (fun h => hsound.rank_lt h) (measure g.rank).wf

/--
A traversal with a bound that asks at each view for its children only gives the
same from every bound above the height of the view.
-/
theorem Sound.traversal_eq {α : Type} (f : Nat → ViewId → α) (step : ViewId → (ViewId → α) → α)
    (hstep : ∀ n v, f (n + 1) v = step v (f n))
    (hlocal : ∀ v a b, (∀ w, g.Child v w → a w = b w) → step v a = step v b) {n m : Nat}
    {v : ViewId} (hn : g.rank v < n) (hm : g.rank v < m) : f n v = f m v := by
  induction n generalizing m v with
  | zero => exact absurd hn (Nat.not_lt_zero _)
  | succ n ih =>
      cases m with
      | zero => exact absurd hm (Nat.not_lt_zero _)
      | succ m =>
          rw [hstep, hstep]
          refine hlocal v _ _ fun w hw => ih ?_ ?_
          · exact Nat.lt_of_lt_of_le (hsound.rank_lt hw) (Nat.le_of_lt_succ hn)
          · exact Nat.lt_of_lt_of_le (hsound.rank_lt hw) (Nat.le_of_lt_succ hm)

variable {v : ViewId} (hv : v < g.size) {n : Nat} (hn : g.size ≤ n)

include hv hn

theorem Sound.reachesTo_eq (target : ViewId) : g.reachesTo target n v = g.reaches v target := by
  have hrank := hsound.rank_lt_size hv
  refine hsound.traversal_eq (g.reachesTo target)
    (fun v a => v == target || (g.view v).children.values.any a) (fun _ _ => rfl) ?_
    (Nat.lt_of_lt_of_le hrank hn) hrank
  intro v a b hab
  have hany : (g.view v).children.values.any a = (g.view v).children.values.any b := by
    rw [Bool.eq_iff_iff, List.any_eq_true, List.any_eq_true]
    exact exists_congr fun w => and_congr_right fun hw => by rw [hab w hw]
  rw [hany]

theorem Sound.countTo_eq : g.countTo n v = g.count v := by
  have hrank := hsound.rank_lt_size hv
  refine hsound.traversal_eq g.countTo
    (fun v a => ((g.view v).buckets.values.map List.length).sum +
      ((g.view v).children.values.map a).sum) (fun _ _ => rfl) ?_
    (Nat.lt_of_lt_of_le hrank hn) hrank
  intro v a b hab
  rw [List.map_congr_left hab]

theorem Sound.literalsTo_eq (path : Path) : g.literalsTo n path v = g.literalsFrom path v := by
  have hrank := hsound.rank_lt_size hv
  refine congrFun (hsound.traversal_eq (fun n v path => g.literalsTo n path v)
    (fun v a path => (g.view v).buckets.values.flatMap (List.map (Literal.under path)) ++
      (g.view v).children.entries.flatMap fun entry => a entry.2 (path.push entry.1))
    (fun _ _ => rfl) ?_ (Nat.lt_of_lt_of_le hrank hn) hrank) path
  intro v a b hab
  funext path
  refine congrArg _ (List.flatMap_congr fun entry hentry => ?_)
  rw [hab entry.2 (List.mem_map_of_mem hentry)]

theorem Sound.viewsTo_eq (path : Path) : g.viewsTo n path v = g.viewsTo g.size path v := by
  have hrank := hsound.rank_lt_size hv
  refine congrFun (hsound.traversal_eq (fun n v path => g.viewsTo n path v)
    (fun v a path => (g.view v).children.entries.flatMap fun entry =>
      a entry.2 (path.push entry.1) ++ [(path.push entry.1, entry.2)])
    (fun _ _ => rfl) ?_ (Nat.lt_of_lt_of_le hrank hn) hrank) path
  intro v a b hab
  funext path
  refine List.flatMap_congr fun entry hentry => ?_
  rw [hab entry.2 (List.mem_map_of_mem hentry)]

end Rank

/-! ## Searching -/

/-- A search finds all the views that lie below a view, if its bound is not too small. -/
theorem Sound.reachesTo_of_reflTransGen {g : BeliefGraph} (hsound : g.Sound) {v target : ViewId}
    (h : ReflTransGen g.Child v target) {n : Nat} (hn : g.rank v ≤ n) :
    g.reachesTo target n v = true := by
  induction n generalizing v with
  | zero =>
      rcases ReflTransGen.cases_head h with rfl | ⟨w, hw, -⟩
      · exact beq_self_eq_true v
      · exact absurd (Nat.lt_of_lt_of_le (hsound.rank_lt hw) hn) (Nat.not_lt_zero _)
  | succ n ih =>
      rw [reachesTo, Bool.or_eq_true]
      rcases ReflTransGen.cases_head h with rfl | ⟨w, hw, hrest⟩
      · exact Or.inl (beq_self_eq_true v)
      · refine Or.inr (List.any_eq_true.2 ⟨w, hw, ih hrest ?_⟩)
        exact Nat.le_of_lt_succ (Nat.lt_of_lt_of_le (hsound.rank_lt hw) hn)

/-- What a search does not find does not lie below. -/
theorem Sound.not_reflTransGen_of_reaches {g : BeliefGraph} (hsound : g.Sound)
    {v target : ViewId} (hv : v < g.size) (h : g.reaches v target = false) :
    ¬ ReflTransGen g.Child v target := by
  intro hbelow
  have hfound := hsound.reachesTo_of_reflTransGen hbelow (Nat.le_of_lt (hsound.rank_lt_size hv))
  rw [reaches, hfound] at h
  cases h

/-! ## Changes of one view -/

section Changes

variable {g : BeliefGraph} {v : ViewId}

theorem child_create {name : String} {a b : ViewId} :
    (g.create name).1.Child a b ↔ g.Child a b := by
  by_cases ha : a = g.size
  · subst ha
    rw [Child, Child, view_create_self, view_of_size_le g (Nat.le_refl _)]
  · rw [Child, Child, view_create_ne g name ha]

theorem child_setHeld (hv : v < g.size) {bucket : Bucket} {literals : List Literal}
    {a b : ViewId} : (g.setHeld v bucket literals).Child a b ↔ g.Child a b := by
  rw [Child, Child, setHeld, view_update g v a _ hv]
  split <;> exact Iff.rfl

theorem child_of_detach (hv : v < g.size) {name : String} {a b : ViewId}
    (h : (g.detach v name).Child a b) : g.Child a b := by
  rw [Child, detach, view_update g v a _ hv] at h
  split at h
  · exact Table.mem_values_erase h
  · exact h

theorem child_of_attach (hv : v < g.size) {name : String} {child a b : ViewId}
    (h : (g.attach v name child).Child a b) : g.Child a b ∨ a = v ∧ b = child := by
  rw [Child, attach, view_update g v a _ hv] at h
  split at h
  · next hav => exact (Table.mem_values_insert h).symm.imp_right fun hb => ⟨hav.symm, hb⟩
  · exact Or.inl h

/-- A way in a graph with a new edge is an old way, or it comes to the edge and goes on behind. -/
theorem transGen_of_attach (hv : v < g.size) {name : String} {child a b : ViewId}
    (h : TransGen (g.attach v name child).Child a b) :
    TransGen g.Child a b ∨ ReflTransGen g.Child a v ∧ ReflTransGen g.Child child b := by
  induction h with
  | single hedge =>
      rcases child_of_attach hv hedge with hold | ⟨rfl, rfl⟩
      · exact Or.inl (TransGen.single hold)
      · exact Or.inr ⟨ReflTransGen.refl, ReflTransGen.refl⟩
  | tail _ hedge ih =>
      rcases child_of_attach hv hedge with hold | ⟨rfl, rfl⟩
      · exact ih.imp (·.tail hold) (And.imp_right (·.tail hold))
      · exact Or.inr ⟨ih.elim TransGen.to_reflTransGen And.left, ReflTransGen.refl⟩

theorem Sound.mono (hsound : g.Sound) {after : BeliefGraph} (hsize : g.size ≤ after.size)
    (hchild : ∀ {a b}, after.Child a b → g.Child a b) : after.Sound where
  closed h := Nat.lt_of_lt_of_le (hsound.closed (hchild h)) hsize
  acyclic a h := hsound.acyclic a (TransGen.mono (fun _ _ hedge => hchild hedge) a a h)

theorem Sound.attach (hsound : g.Sound) (hv : v < g.size) (name : String) {child : ViewId}
    (hchild : child < g.size) (hfree : ¬ ReflTransGen g.Child child v) :
    (g.attach v name child).Sound where
  closed {a b} h := by
    rw [size_attach]
    rcases child_of_attach hv h with hold | ⟨-, rfl⟩
    · exact hsound.closed hold
    · exact hchild
  acyclic a h := by
    rcases transGen_of_attach hv h with hold | ⟨hbefore, hbehind⟩
    · exact hsound.acyclic a hold
    · exact hfree (hbehind.trans hbefore)

end Changes

/-! ## Changes above a handle -/

/-- A sound graph in which the views from a handle on lead to such views only. -/
structure Fenced (first : ViewId) (g : BeliefGraph) : Prop where
  sound : g.Sound
  inside : first ≤ g.size
  apart : ∀ {v w}, first ≤ v → g.Child v w → first ≤ w

/-- What a graph has become when the views below a handle were left alone. -/
structure Grown (first : ViewId) (g after : BeliefGraph) : Prop where
  fenced : after.Fenced first
  size : g.size ≤ after.size
  kept : ∀ v < first, after.view v = g.view v

theorem Sound.fenced_zero {g : BeliefGraph} (hsound : g.Sound) : g.Fenced 0 :=
  ⟨hsound, Nat.zero_le _, fun _ _ => Nat.zero_le _⟩

/-- No view of a graph is above all of its handles. -/
theorem Sound.fenced_size {g : BeliefGraph} (hsound : g.Sound) : g.Fenced g.size :=
  ⟨hsound, Nat.le_refl _, fun hv h => absurd h.lt_size (Nat.not_lt_of_le hv)⟩

/-- From the views behind the fence no way leads to a view before it. -/
theorem Fenced.le_of_reflTransGen {g : BeliefGraph} {first v w : ViewId}
    (hfenced : g.Fenced first) (hv : first ≤ v) (h : ReflTransGen g.Child v w) : first ≤ w := by
  induction h with
  | refl => exact hv
  | tail _ hedge ih => exact hfenced.apart ih hedge

namespace Grown

variable {first : ViewId} {g middle after : BeliefGraph}

theorem refl (hfenced : g.Fenced first) : Grown first g g :=
  ⟨hfenced, Nat.le_refl _, fun _ _ => rfl⟩

theorem trans (hfirst : Grown first g middle) (hsecond : Grown first middle after) :
    Grown first g after where
  fenced := hsecond.fenced
  size := Nat.le_trans hfirst.size hsecond.size
  kept v hv := (hsecond.kept v hv).trans (hfirst.kept v hv)

/-- Where the views that were there are left alone, so are those behind any fence. -/
theorem of_size (hgrown : Grown g.size g after) (hfenced : g.Fenced first) :
    Grown first g after where
  fenced :=
    { sound := hgrown.fenced.sound
      inside := Nat.le_trans hfenced.inside hgrown.size
      apart := by
        intro v w hv h
        by_cases hold : v < g.size
        · rw [Child, hgrown.kept v hold] at h
          exact hfenced.apart hv h
        · exact Nat.le_trans hfenced.inside (hgrown.fenced.apart (Nat.le_of_not_lt hold) h) }
  size := hgrown.size
  kept v hv := hgrown.kept v (Nat.lt_of_lt_of_le hv hfenced.inside)

theorem create (hfenced : g.Fenced first) (name : String) :
    Grown first g (g.create name).1 where
  fenced :=
    { sound := hfenced.sound.mono (Nat.le_of_lt (by simp)) child_create.1
      inside := Nat.le_trans hfenced.inside (Nat.le_of_lt (by simp))
      apart := fun hv h => hfenced.apart hv (child_create.1 h) }
  size := Nat.le_of_lt (by simp)
  kept v hv := view_create_ne g name (Nat.ne_of_lt (Nat.lt_of_lt_of_le hv hfenced.inside))

/-- A view behind the fence is changed, and gets no child but one that does not lead to it. -/
theorem update (hfenced : g.Fenced first) {v : ViewId} (hbehind : first ≤ v) (hv : v < g.size)
    {f : View → View} (hsound : (g.update v f).Sound)
    (hchild : ∀ {a b}, (g.update v f).Child a b → g.Child a b ∨ first ≤ b) :
    Grown first g (g.update v f) where
  fenced :=
    { sound := hsound
      inside := by rw [size_update]; exact hfenced.inside
      apart := fun ha h => (hchild h).elim (hfenced.apart ha) id }
  size := Nat.le_of_eq (size_update g v f).symm
  kept w hw := by
    rw [view_update g v w f hv, if_neg]
    rintro rfl
    exact Nat.not_lt_of_le hbehind hw

variable {v : ViewId}

theorem setHeld (hfenced : g.Fenced first) (hbehind : first ≤ v) (hv : v < g.size)
    (bucket : Bucket) (literals : List Literal) :
    Grown first g (g.setHeld v bucket literals) := by
  refine update hfenced hbehind hv ?_ fun h => Or.inl ((child_setHeld hv).1 h)
  exact hfenced.sound.mono (Nat.le_of_eq (size_setHeld ..).symm) (child_setHeld hv).1

theorem detach (hfenced : g.Fenced first) (hbehind : first ≤ v) (hv : v < g.size)
    (name : String) : Grown first g (g.detach v name) := by
  refine update hfenced hbehind hv ?_ fun h => Or.inl (child_of_detach hv h)
  exact hfenced.sound.mono (Nat.le_of_eq (size_detach ..).symm) (child_of_detach hv)

theorem attach (hfenced : g.Fenced first) (hbehind : first ≤ v) (hv : v < g.size)
    (name : String) {child : ViewId} (hfirst : first ≤ child) (hchild : child < g.size)
    (hfree : ¬ ReflTransGen g.Child child v) : Grown first g (g.attach v name child) := by
  refine update hfenced hbehind hv (hfenced.sound.attach hv name hchild hfree) ?_
  intro a b h
  rcases child_of_attach hv h with hold | ⟨-, rfl⟩
  · exact Or.inl hold
  · exact Or.inr hfirst

end Grown

/-! ## New views below old ones -/

/-- A new view with all that it leads to stands above the views that were there. -/
structure Sprout (g after : BeliefGraph) (child : ViewId) : Prop where
  grown : Grown g.size g after
  new : g.size ≤ child
  made : child < after.size

theorem sprout_create {g : BeliefGraph} (hsound : g.Sound) (name : String) :
    Sprout g (g.create name).1 (g.create name).2 :=
  ⟨.create hsound.fenced_size name, Nat.le_refl _, by rw [size_create]; exact Nat.lt_succ_self _⟩

/-- A new view can be hung below any view that was there. -/
theorem Sprout.attach {g after : BeliefGraph} {child : ViewId} (hsprout : Sprout g after child)
    {first v : ViewId} (hfenced : g.Fenced first) (hbehind : first ≤ v) (hv : v < g.size)
    (name : String) : Grown first g (after.attach v name child) := by
  have hgrown := hsprout.grown.of_size hfenced
  refine hgrown.trans (.attach hgrown.fenced hbehind (Nat.lt_of_lt_of_le hv hgrown.size) name
    (Nat.le_trans hfenced.inside hsprout.new) hsprout.made ?_)
  intro hback
  exact Nat.not_lt_of_le (hsprout.grown.fenced.le_of_reflTransGen hsprout.new hback) hv

theorem Sprout.then {g made after : BeliefGraph} {child : ViewId} (hsprout : Sprout g made child)
    (hgrown : Grown g.size made after) : Sprout g after child :=
  ⟨hsprout.grown.trans hgrown, hsprout.new, Nat.lt_of_lt_of_le hsprout.made hgrown.size⟩

/-- A generator makes new views. -/
def Generates (generate : ViewGenerator) : Prop :=
  ∀ g name walked, g.Sound →
    Sprout g (generate g name walked).1 (generate g name walked).2

theorem generates_blank : Generates blank := fun _ name _ hsound => sprout_create hsound name

section Walking

variable {first : ViewId} {generator : Option ViewGenerator}

/-- A walk from a view behind a fence stays behind it. -/
theorem grown_of_descendFrom (hgenerator : ∀ generate ∈ generator, Generates generate)
    {way : List String} {walked : Path} {g after : BeliefGraph} {v target : ViewId}
    (hfenced : g.Fenced first) (hbehind : first ≤ v) (hv : v < g.size)
    (h : descendFrom generator way walked g v = .ok (after, target)) :
    Grown first g after ∧ first ≤ target ∧ target < after.size := by
  induction way generalizing walked g v with
  | nil =>
      cases h
      exact ⟨.refl hfenced, hbehind, hv⟩
  | cons name rest ih =>
      unfold descendFrom at h
      cases hchild : (g.view v).children.get? name with
      | some child =>
          rw [hchild] at h
          have hedge := child_of_child? hchild
          exact ih hfenced (hfenced.apart hbehind hedge) (hfenced.sound.closed hedge) h
      | none =>
          rw [hchild] at h
          cases generator with
          | none => cases h
          | some generate =>
              have hsprout := hgenerator generate rfl g name walked hfenced.sound
              have hgrown := hsprout.attach hfenced hbehind hv name
              obtain ⟨hrest, htarget⟩ := ih hgrown.fenced
                (Nat.le_trans hfenced.inside hsprout.new) (by simpa using hsprout.made) h
              exact ⟨hgrown.trans hrest, htarget⟩

theorem grown_of_add (hgenerator : ∀ generate ∈ generator, Generates generate) {heap : Heap}
    {g after : BeliefGraph} {v : ViewId} {l : Literal} {added : Bool} (hfenced : g.Fenced first)
    (hbehind : first ≤ v) (hv : v < g.size)
    (h : g.add heap v l generator = .ok (added, after)) : Grown first g after := by
  unfold add at h
  cases hdescend : g.descend v l.functor.view generator with
  | error e =>
      rw [hdescend] at h
      cases h
  | ok found =>
      obtain ⟨middle, target⟩ := found
      obtain ⟨hgrown, htarget, hmade⟩ :=
        grown_of_descendFrom hgenerator hfenced hbehind hv hdescend
      rw [hdescend] at h
      dsimp only [bind, Except.bind] at h
      split at h
      · cases h
        exact hgrown
      · cases h
        exact hgrown.trans (.setHeld hgrown.fenced htarget hmade _ _)

end Walking

/-! ## Views from documents -/

theorem grown_addLeaf {first : ViewId} {g : BeliefGraph} {v : ViewId} (hfenced : g.Fenced first)
    (hbehind : first ≤ v) (hv : v < g.size) (key : String) (leaf : Document) :
    Grown first g (g.addLeaf v key leaf) := by
  unfold addLeaf
  split
  · exact .refl hfenced
  · split
    · next hadd =>
        refine grown_of_add ?_ hfenced hbehind hv hadd
        rintro generate ⟨⟩
        exact generates_blank
    · exact .refl hfenced

theorem grown_addEntries {first : ViewId} {g : BeliefGraph} {v : ViewId} (hfenced : g.Fenced first)
    (hbehind : first ≤ v) (hv : v < g.size) (entries : List (String × Document)) :
    Grown first g (addEntries g v entries) := by
  fun_induction addEntries g v entries generalizing first with
  | case1 g v => exact .refl hfenced
  | case2 g v key entries rest made child hcreate ihInside ihRest =>
      -- the view for the object is filled before it is hung
      have hsprout := sprout_create hfenced.sound key
      rw [hcreate] at hsprout
      have hinside := ihInside hsprout.grown.fenced hsprout.new hsprout.made
      have hgrown := (hsprout.then hinside).attach hfenced hbehind hv key
      exact hgrown.trans (ihRest hgrown.fenced hbehind (Nat.lt_of_lt_of_le hv hgrown.size))
  | case3 g v key leaf rest _ ih =>
      have hgrown := grown_addLeaf hfenced hbehind hv key leaf
      exact hgrown.trans (ih hgrown.fenced hbehind (Nat.lt_of_lt_of_le hv hgrown.size))

/-- A document becomes a new view. -/
theorem sprout_ofDocument {g : BeliefGraph} (hsound : g.Sound) (name : String) (d : Document) :
    Sprout g (g.ofDocument name d).1 (g.ofDocument name d).2 := by
  have hsprout := sprout_create hsound name
  have hleaf : ∀ leaf, Sprout g (g.ofLeaf name leaf).1 (g.ofLeaf name leaf).2 := fun leaf =>
    hsprout.then (grown_addLeaf hsprout.grown.fenced hsprout.new hsprout.made "value" leaf)
  cases d with
  | object entries =>
      exact hsprout.then
        (grown_addEntries hsprout.grown.fenced hsprout.new hsprout.made entries)
  | null => exact hleaf .null
  | bool b => exact hleaf (.bool b)
  | int i => exact hleaf (.int i)
  | float x => exact hleaf (.float x)
  | text s => exact hleaf (.text s)
  | array items => exact hleaf (.array items)

theorem generates_fromDocument (d : Document) : Generates (fromDocument d) := by
  intro g name walked hsound
  unfold fromDocument
  split
  · exact sprout_ofDocument hsound name _
  · exact sprout_create hsound name

/-! ## Copies -/

/-- Put a view with its content above all others. -/
def put (g : BeliefGraph) (view : View) : BeliefGraph := ⟨g.views.push view⟩

section Put

variable {g : BeliefGraph} {node : View}

theorem size_put : (g.put node).size = g.size + 1 := by simp [size, put]

theorem view_put (w : ViewId) : (g.put node).view w = if w = g.size then node else g.view w := by
  by_cases hw : w = g.views.size
  · simp [view, put, size, hw, Array.getD_eq_getD_getElem?]
  · simp [view, put, size, hw, Array.getD_eq_getD_getElem?, Array.getElem?_push]

theorem child_put {a b : ViewId} :
    (g.put node).Child a b ↔ if a = g.size then b ∈ node.children.values else g.Child a b := by
  rw [Child, view_put]
  split <;> rfl

/-- No view leads to a new one, so that a view with old children closes no cycle. -/
theorem Sound.put (hsound : g.Sound) (hchildren : ∀ w ∈ node.children.values, w < g.size) :
    (g.put node).Sound := by
  have hold : ∀ {a b}, (g.put node).Child a b → b < g.size := by
    intro a b h
    rw [child_put] at h
    split at h
    · exact hchildren b h
    · exact hsound.closed h
  have hways : ∀ {a b}, TransGen (g.put node).Child a b → a < g.size → TransGen g.Child a b := by
    intro a b h ha
    induction h with
    | single hedge =>
        rw [child_put, if_neg (Nat.ne_of_lt ha)] at hedge
        exact .single hedge
    | tail _ hedge ih =>
        obtain ⟨_, -, hlast⟩ := TransGen.tail'_iff.1 ih
        rw [child_put, if_neg (Nat.ne_of_lt (hsound.closed hlast))] at hedge
        exact ih.tail hedge
  constructor
  · intro a b h
    rw [size_put]
    exact Nat.lt_succ_of_lt (hold h)
  · intro a h
    obtain ⟨b, -, hlast⟩ := TransGen.tail'_iff.1 h
    exact hsound.acyclic a (hways h (hold hlast))

/-- A view with new children is itself new. -/
theorem sprout_put {base : BeliefGraph} (hgrown : Grown base.size base g)
    (hchildren : ∀ w ∈ node.children.values, base.size ≤ w ∧ w < g.size) :
    Sprout base (g.put node) g.size where
  grown :=
    { fenced :=
        { sound := hgrown.fenced.sound.put fun w hw => (hchildren w hw).2
          inside := by rw [size_put]; exact Nat.le_succ_of_le hgrown.size
          apart := by
            intro a b ha h
            rw [child_put] at h
            split at h
            · exact (hchildren b h).1
            · exact hgrown.fenced.apart ha h }
      size := by rw [size_put]; exact Nat.le_succ_of_le hgrown.size
      kept := fun v hv => by
        rw [view_put, if_neg (Nat.ne_of_lt (Nat.lt_of_lt_of_le hv hgrown.size))]
        exact hgrown.kept v hv }
  new := hgrown.size
  made := by rw [size_put]; exact Nat.lt_succ_self _

end Put

/-- Copy the children of a view, each by `copyChild`. -/
def copyChildren (copyChild : ViewId → Copying ViewId) (entries : List (String × ViewId)) :
    Copying (List (String × ViewId)) :=
  entries.mapM fun (name, child) => do
    let copied ← copyChild child
    pure (name, copied)

/-- Copy the literals of a view. -/
def copyBuckets (entries : List (Bucket × List Literal)) : Copying (List (Bucket × List Literal)) :=
  entries.mapM fun (bucket, literals) => do
    let copied ← literals.mapM copyLiteral
    pure (bucket, copied)

theorem copyChildren_cons (copyChild : ViewId → Copying ViewId) (entry : String × ViewId)
    (rest : List (String × ViewId)) (state : BeliefGraph × Store) :
    copyChildren copyChild (entry :: rest) state =
      (((entry.1, (copyChild entry.2 state).1) ::
          (copyChildren copyChild rest (copyChild entry.2 state).2).1),
        (copyChildren copyChild rest (copyChild entry.2 state).2).2) := by
  unfold copyChildren
  rw [List.mapM_cons]
  rfl

/-- Copying literals makes no views. -/
theorem copyBuckets_graph (entries : List (Bucket × List Literal))
    (state : BeliefGraph × Store) : (copyBuckets entries state).2.1 = state.1 := by
  have hliterals : ∀ (literals : List Literal) (state : BeliefGraph × Store),
      ((literals.mapM copyLiteral : Copying (List Literal)) state).2.1 = state.1 := by
    intro literals
    induction literals with
    | nil => exact fun _ => rfl
    | cons l rest ih =>
        intro state
        rw [List.mapM_cons]
        exact ih _
  unfold copyBuckets
  induction entries generalizing state with
  | nil => rfl
  | cons entry rest ih =>
      rw [List.mapM_cons]
      exact (ih _).trans (hliterals entry.2 state)

/-- The last step of a copy: the literals are copied, and the view is put above all others. -/
def finishCopy (node : View) (children : List (String × ViewId)) (state : BeliefGraph × Store) :
    ViewId × BeliefGraph × Store :=
  let copied := copyBuckets node.buckets.entries state
  (copied.2.1.size, (copied.2.1.put ⟨node.name, ⟨children⟩, ⟨copied.1⟩⟩, copied.2.2))

theorem copyTo_succ (n : Nat) (v : ViewId) (state : BeliefGraph × Store) :
    copyTo (n + 1) v state =
      finishCopy (state.1.view v)
        (copyChildren (copyTo n) (state.1.view v).children.entries state).1
        (copyChildren (copyTo n) (state.1.view v).children.entries state).2 := rfl

section Copies

variable {base : BeliefGraph} {copyChild : ViewId → Copying ViewId}
  {entries : List (String × ViewId)} {state : BeliefGraph × Store}

/-- The children are copied one after the other, each above the ones before. -/
theorem grown_copyChildren
    (hcopy : ∀ entry ∈ entries, ∀ state, Grown base.size base state.1 →
      Sprout state.1 (copyChild entry.2 state).2.1 (copyChild entry.2 state).1)
    (hgrown : Grown base.size base state.1) :
    Grown state.1.size state.1 (copyChildren copyChild entries state).2.1 ∧
      ∀ entry ∈ (copyChildren copyChild entries state).1,
        state.1.size ≤ entry.2 ∧ entry.2 < (copyChildren copyChild entries state).2.1.size := by
  induction entries generalizing state with
  | nil => exact ⟨.refl hgrown.fenced.sound.fenced_size, fun _ h => absurd h List.not_mem_nil⟩
  | cons entry rest ih =>
      have hsprout := hcopy entry List.mem_cons_self state hgrown
      obtain ⟨hrest, hbounds⟩ := ih
        (fun other hother => hcopy other (List.mem_cons_of_mem _ hother))
        (hgrown.trans (hsprout.grown.of_size hgrown.fenced))
      rw [copyChildren_cons]
      refine ⟨hsprout.grown.trans (hrest.of_size hsprout.grown.fenced), ?_⟩
      intro other hother
      rcases List.mem_cons.1 hother with rfl | hother
      · exact ⟨hsprout.new, Nat.lt_of_lt_of_le hsprout.made hrest.size⟩
      · exact ⟨Nat.le_trans hsprout.grown.size (hbounds other hother).1, (hbounds other hother).2⟩

theorem copyChildren_congr {other : ViewId → Copying ViewId}
    (hcopy : ∀ entry ∈ entries, ∀ state, Grown base.size base state.1 →
      Sprout state.1 (copyChild entry.2 state).2.1 (copyChild entry.2 state).1)
    (hsame : ∀ entry ∈ entries, ∀ state, Grown base.size base state.1 →
      copyChild entry.2 state = other entry.2 state)
    (hgrown : Grown base.size base state.1) :
    copyChildren copyChild entries state = copyChildren other entries state := by
  induction entries generalizing state with
  | nil => rfl
  | cons entry rest ih =>
      have hsprout := hcopy entry List.mem_cons_self state hgrown
      have hrest := ih (fun other hother => hcopy other (List.mem_cons_of_mem _ hother))
        (fun other hother => hsame other (List.mem_cons_of_mem _ hother))
        (hgrown.trans (hsprout.grown.of_size hgrown.fenced))
      rw [copyChildren_cons, copyChildren_cons, hrest,
        hsame entry List.mem_cons_self state hgrown]

variable (hsound : base.Sound)

include hsound

/--
A copy is a new view that leads to new views only.  The views of `base` are those
from before the copy; what is copied on the way stands above them.
-/
theorem Sound.sprout_copyTo {n : Nat} {v : ViewId} (hv : v < base.size) (hn : base.rank v < n)
    (hgrown : Grown base.size base state.1) :
    Sprout state.1 (copyTo n v state).2.1 (copyTo n v state).1 := by
  induction n generalizing v state with
  | zero => exact absurd hn (Nat.not_lt_zero _)
  | succ n ih =>
      have hchildren : ∀ entry ∈ (state.1.view v).children.entries, ∀ state,
          Grown base.size base state.1 →
            Sprout state.1 (copyTo n entry.2 state).2.1 (copyTo n entry.2 state).1 := by
        intro entry hentry state hstate
        rw [hgrown.kept v hv] at hentry
        have hedge : base.Child v entry.2 := List.mem_map_of_mem hentry
        exact ih (hsound.closed hedge)
          (Nat.lt_of_lt_of_le (hsound.rank_lt hedge) (Nat.le_of_lt_succ hn)) hstate
      obtain ⟨hcopied, hbounds⟩ := grown_copyChildren hchildren hgrown
      rw [copyTo_succ, finishCopy, copyBuckets_graph]
      refine sprout_put hcopied ?_
      intro w hw
      obtain ⟨entry, hentry, rfl⟩ := List.mem_map.1 hw
      exact hbounds entry hentry

/-- Every bound above the height of a view gives the same copy. -/
theorem Sound.copyTo_eq {n m : Nat} {v : ViewId} (hv : v < base.size) (hn : base.rank v < n)
    (hm : base.rank v < m) (hgrown : Grown base.size base state.1) :
    copyTo n v state = copyTo m v state := by
  induction n generalizing m v state with
  | zero => exact absurd hn (Nat.not_lt_zero _)
  | succ n ih =>
      cases m with
      | zero => exact absurd hm (Nat.not_lt_zero _)
      | succ m =>
          have hedge : ∀ entry ∈ (state.1.view v).children.entries, base.Child v entry.2 := by
            intro entry hentry
            rw [hgrown.kept v hv] at hentry
            exact List.mem_map_of_mem hentry
          have hlt : ∀ {k}, base.rank v < k + 1 → ∀ entry ∈ (state.1.view v).children.entries,
              base.rank entry.2 < k := fun hk entry hentry =>
            Nat.lt_of_lt_of_le (hsound.rank_lt (hedge entry hentry)) (Nat.le_of_lt_succ hk)
          rw [copyTo_succ, copyTo_succ, copyChildren_congr _ _ hgrown]
          · exact fun entry hentry state hstate =>
              hsound.sprout_copyTo (hsound.closed (hedge entry hentry)) (hlt hn entry hentry) hstate
          · exact fun entry hentry state hstate =>
              ih (hsound.closed (hedge entry hentry)) (hlt hn entry hentry) (hlt hm entry hentry)
                hstate

end Copies

section Copy

variable {g : BeliefGraph} (hsound : g.Sound) {v : ViewId} (hv : v < g.size)

include hsound hv

theorem Sound.copyTo_eq_copy {n : Nat} (hn : g.size ≤ n) (s : Store) :
    copyTo n v (g, s) = copy v (g, s) := by
  have hrank := hsound.rank_lt_size hv
  exact hsound.copyTo_eq hv (Nat.lt_of_lt_of_le hrank hn) hrank (.refl hsound.fenced_size)

theorem Sound.sprout_copy (s : Store) : Sprout g (copy v (g, s)).2.1 (copy v (g, s)).1 := by
  have hgrown : Grown g.size g (g, s).1 := .refl hsound.fenced_size
  exact hsound.sprout_copyTo hv (hsound.rank_lt_size hv) hgrown

end Copy

/-! ## Changes of a graph -/

section Operations

variable {g : BeliefGraph} (hsound : g.Sound) {v : ViewId} (hv : v < g.size)

include hsound hv

/-- A view is hung only where no way leads from it back to its new parent. -/
theorem Sound.hang {generator : Option ViewGenerator}
    (hgenerator : ∀ generate ∈ generator, Generates generate) (parent : Path) {child : ViewId}
    (hchild : child < g.size) : (g.hang v parent child generator).2.Sound := by
  unfold BeliefGraph.hang
  dsimp only
  split
  · exact hsound
  · cases hdescend : g.descend v parent generator with
    | error e => exact hsound
    | ok found =>
        obtain ⟨middle, target⟩ := found
        obtain ⟨hgrown, -, htarget⟩ :=
          grown_of_descendFrom hgenerator hsound.fenced_zero (Nat.zero_le _) hv hdescend
        have hmade : child < middle.size := Nat.lt_of_lt_of_le hchild hgrown.size
        dsimp only
        split
        · exact hgrown.fenced.sound
        · next hreaches =>
            split
            · exact hgrown.fenced.sound
            · refine hgrown.fenced.sound.attach htarget _ hmade ?_
              exact hgrown.fenced.sound.not_reflTransGen_of_reaches hmade
                (Bool.eq_false_iff.2 hreaches)

theorem Sound.lt_of_locate? {path : Path} {target : ViewId}
    (h : g.locate? v path = some target) : target < g.size := by
  rw [locate?_eq_childAt?] at h
  have hdescend := descendFrom_of_childAt? h none .empty
  exact (grown_of_descendFrom (fun _ hnone => absurd hnone (Option.not_mem_none _))
    hsound.fenced_zero (Nat.zero_le _) hv hdescend).2.2

theorem Sound.remove (heap : Heap) (l : Literal) : (g.remove heap v l).2.Sound := by
  unfold BeliefGraph.remove
  dsimp only
  split
  · exact hsound
  · next target hlocate =>
      have htarget := hsound.lt_of_locate? hv hlocate
      split
      · exact hsound
      · exact (Grown.setHeld hsound.fenced_zero (Nat.zero_le _) htarget _ _).fenced.sound

theorem Sound.removeView (path : Path) : (g.removeView v path).2.Sound := by
  unfold BeliefGraph.removeView
  split
  · exact hsound
  · split
    · exact hsound
    · next parent hlocate =>
        have hparent := hsound.lt_of_locate? hv hlocate
        split
        · exact (Grown.detach hsound.fenced_zero (Nat.zero_le _) hparent _).fenced.sound
        · exact hsound

end Operations

/-! ## All graphs -/

/-- The generators that a change may be given. -/
inductive Provided : Option ViewGenerator → Prop
  | none : Provided none
  | blank : Provided (some blank)
  | fromDocument (d : Document) : Provided (some (fromDocument d))

theorem Provided.generates {generator : Option ViewGenerator} (h : Provided generator) :
    ∀ generate ∈ generator, Generates generate := by
  rintro generate hgenerate
  cases h with
  | none => cases hgenerate
  | blank =>
      cases hgenerate
      exact generates_blank
  | fromDocument d =>
      cases hgenerate
      exact generates_fromDocument d

/--
The graphs that changes can lead to.  Each change starts at any view that there
is; a change that fails leaves the views that it made on the way.
-/
inductive Built : BeliefGraph → Prop
  | empty : Built {}
  | create {g} (name : String) : Built g → Built (g.create name).1
  | ofDocument {g} (name : String) (d : Document) : Built g → Built (g.ofDocument name d).1
  | add {g v generator after} (heap : Heap) (l : Literal) {added : Bool} :
      Built g → v < g.size → Provided generator →
        g.add heap v l generator = .ok (added, after) → Built after
  | hang {g v child generator} (parent : Path) :
      Built g → v < g.size → child < g.size → Provided generator →
        Built (g.hang v parent child generator).2
  | addCopy {g v child generator} (parent : Path) (s : Store) :
      Built g → v < g.size → child < g.size → Provided generator →
        Built (addCopy v parent child generator (g, s)).2.1
  | remove {g v} (heap : Heap) (l : Literal) :
      Built g → v < g.size → Built (g.remove heap v l).2
  | removeView {g v} (path : Path) : Built g → v < g.size → Built (g.removeView v path).2
  | copy {g v} (s : Store) : Built g → v < g.size → Built (copy v (g, s)).2.1

/-- Every change keeps a graph sound. -/
theorem Built.sound {g : BeliefGraph} (h : Built g) : g.Sound := by
  induction h with
  | empty =>
      have hnone : ∀ {v w}, ¬ Child {} v w := fun h => absurd h.lt_size (Nat.not_lt_zero _)
      constructor
      · exact fun h => absurd h hnone
      · intro v h
        obtain ⟨_, -, hlast⟩ := TransGen.tail'_iff.1 h
        exact hnone hlast
  | create name _ ih => exact (sprout_create ih name).grown.fenced.sound
  | ofDocument name d _ ih => exact (sprout_ofDocument ih name d).grown.fenced.sound
  | add heap l _ hv hprovided hadd ih =>
      exact (grown_of_add hprovided.generates ih.fenced_zero (Nat.zero_le _) hv hadd).fenced.sound
  | hang parent _ hv hchild hprovided ih => exact ih.hang hv hprovided.generates parent hchild
  | addCopy parent s _ hv hchild hprovided ih =>
      have hsprout := ih.sprout_copy hchild s
      exact hsprout.grown.fenced.sound.hang (Nat.lt_of_lt_of_le hv hsprout.grown.size)
        hprovided.generates parent hsprout.made
  | remove heap l _ hv ih => exact ih.remove hv heap l
  | removeView path _ hv ih => exact ih.removeView hv path
  | copy s _ hv ih => exact (ih.sprout_copy hv s).grown.fenced.sound

/--
No view of a graph lies below itself.  Hence going from views to their children
comes to an end, and a traversal from any view gives the same under every bound
that is not below the number of views.
-/
theorem acyclic_of_built {g : BeliefGraph} (h : Built g) :
    (∀ v, ¬ TransGen g.Child v v) ∧
      (WellFounded fun child v => g.Child v child) ∧
      ∀ v < g.size, ∀ n, g.size ≤ n →
        (∀ target, g.reachesTo target n v = g.reaches v target) ∧
          g.countTo n v = g.count v ∧
          (∀ path, g.literalsTo n path v = g.literalsFrom path v) ∧
          (∀ path, g.viewsTo n path v = g.viewsTo g.size path v) ∧
          ∀ s, copyTo n v (g, s) = copy v (g, s) := by
  have hsound := h.sound
  refine ⟨hsound.acyclic, hsound.wellFounded, fun v hv n hn => ⟨?_, ?_, ?_, ?_, ?_⟩⟩
  · exact hsound.reachesTo_eq hv hn
  · exact hsound.countTo_eq hv hn
  · exact hsound.literalsTo_eq hv hn
  · exact hsound.viewsTo_eq hv hn
  · exact hsound.copyTo_eq_copy hv hn

/-- A root with a view `a`, and a view `b` both below the root and below `a`. -/
def shared : BeliefGraph :=
  let g := (((rooted.create "a").1.create "b").1.hang root .empty 1 none).2
  ((g.hang 1 .empty 2 none).2.hang root .empty 2 none).2

/-- `a` cannot be hung below `b`, and no view of the graph lies below itself. -/
theorem acyclic_shared :
    (shared.hang 2 .empty 1 none).1 = .error (.cyclicAlias "a" "") ∧
      ∀ v, ¬ TransGen shared.Child v v := by
  have hmade : Built ((rooted.create "a").1.create "b").1 :=
    .create _ (.create _ (.create _ .empty))
  have ha : Built (((rooted.create "a").1.create "b").1.hang root .empty 1 none).2 :=
    .hang .empty hmade (by decide) (by decide) .none
  have hb : Built ((((rooted.create "a").1.create "b").1.hang root .empty 1 none).2.hang 1 .empty 2
      none).2 := .hang .empty ha (by decide) (by decide) .none
  have hshared : Built shared := .hang .empty hb (by decide) (by decide) .none
  exact ⟨rfl, (acyclic_of_built hshared).1⟩

end BeliefGraph

end Deliberation
