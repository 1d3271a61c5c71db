import Deliberation.Proofs.Belief.Walking

/-!
# Attaching views

A view is hung below the view at a path, itself or as a copy.  The walk to the path
may make views, and what is found at its end may still be a reason to refuse.  A
refusal changes no literal of the views that were there.  It also leaves their
paths alone, unless the walk has made views, which then stay.
-/

namespace Deliberation

namespace BeliefGraph

/-- The two ways to attach a view: the view itself, or a copy of it.  Each has a result and leaves
a graph. -/
inductive Attaches (g : BeliefGraph) (v : ViewId) (parent : Path) (child : ViewId)
    (generator : Option ViewGenerator) : Except BeliefError Unit → BeliefGraph → Prop
  | hang : Attaches g v parent child generator (g.hang v parent child generator).1
      (g.hang v parent child generator).2
  | addCopy (s : Store) : Attaches g v parent child generator
      (addCopy v parent child generator (g, s)).1 (addCopy v parent child generator (g, s)).2.1

/-! ## Walks that fail -/

/-- With a generator a walk always comes to its end. -/
theorem exists_descendFrom (generate : ViewGenerator) (way : List String) (walked : Path)
    (g : BeliefGraph) (v : ViewId) :
    ∃ found, descendFrom (some generate) way walked g v = .ok found := by
  induction way generalizing walked g v with
  | nil => exact ⟨_, rfl⟩
  | cons name rest ih =>
      unfold descendFrom
      cases (g.view v).children.get? name with
      | some child => exact ih _ _ child
      | none => exact ih _ _ _

/-- A way leads nowhere when it comes to a name that is free. -/
theorem childAt?_through_free {g : BeliefGraph} {v w : ViewId} {first : List String} {free : String}
    (hfirst : g.childAt? v first = some w) (hfree : g.child? w free = none) (rest : List String) :
    g.childAt? v (first ++ free :: rest) = none := by
  rw [childAt?_append, hfirst, Option.bind_some, childAt?_cons, hfree, Option.bind_none]

theorem Sound.lt_of_childAt? {g : BeliefGraph} (hsound : g.Sound) {v target : ViewId}
    (hv : v < g.size) {way : List String} (h : g.childAt? v way = some target) :
    target < g.size :=
  hsound.lt_of_locate? hv ((g.locate?_eq_childAt? v ⟨way⟩).trans h)

/-- Ways from the old views stay when the children of all old views do. -/
theorem Sound.childAt?_congr {g after : BeliefGraph} (hsound : g.Sound)
    (hchild : ∀ u < g.size, ∀ name, after.child? u name = g.child? u name) {v : ViewId}
    (hv : v < g.size) (way : List String) : after.childAt? v way = g.childAt? v way := by
  induction way generalizing v with
  | nil => rfl
  | cons name rest ih =>
      rw [childAt?_cons, childAt?_cons, hchild v hv]
      cases hnext : g.child? v name with
      | none => rfl
      | some child => exact ih (hsound.closed (child_of_child? hnext))

/-! ## Refusals -/

section Refusals

variable {g middle after : BeliefGraph} {v child : ViewId} {generator : Option ViewGenerator}
  {parent : Path} {name : String} {e : BeliefError}

/-- Whether an attachment is refused before it walks, or walks over views that are there. -/
def MakesNothing (g : BeliefGraph) (v : ViewId) (parent : Path) (name : String)
    (generator : Option ViewGenerator) : Prop :=
  name = "" ∨ generator = none ∨ g.containsView v parent = true

/-- What is left when a view with a name is refused below the view at a path. -/
inductive Leaves (g : BeliefGraph) (v : ViewId) (parent : Path) (name : String)
    (generator : Option ViewGenerator) (e : BeliefError) : BeliefGraph → Prop
  | all (hnothing : g.MakesNothing v parent name generator) : Leaves g v parent name generator e g
  | branch {after : BeliefGraph} {first rest : List String} {free : String} {w fresh : ViewId}
      (hmakes : ¬ g.MakesNothing v parent name generator)
      (herror : e = .cyclicAlias name parent.text ∨ e = .viewExists name parent.text)
      (hway : parent.segments = first ++ free :: rest) (hfirst : g.childAt? v first = some w)
      (hbranched : Branched g w free fresh after) : Leaves g v parent name generator e after

theorem leaves_of_hang (hsound : g.Sound) (hv : v < g.size)
    (hgenerator : ∀ generate ∈ generator, Generates generate)
    (h : g.hang v parent child generator = (.error e, after)) :
    Leaves g v parent (g.view child).name generator e after := by
  unfold hang at h
  dsimp only at h
  by_cases hname : (g.view child).name = ""
  · rw [if_pos hname] at h
    cases h
    exact .all (Or.inl hname)
  · rw [if_neg hname] at h
    cases hwalk : g.descend v parent generator with
    | error _ =>
        rw [hwalk] at h
        cases h
        refine .all (Or.inr (Or.inl ?_))
        cases generator with
        | none => rfl
        | some generate =>
            obtain ⟨found, hfound⟩ := exists_descendFrom generate parent.segments .empty g v
            rw [descend, hfound] at hwalk
            cases hwalk
    | ok found =>
        obtain ⟨middle, target⟩ := found
        obtain ⟨herror, rfl⟩ : (e = .cyclicAlias (g.view child).name parent.text ∨
            e = .viewExists (g.view child).name parent.text) ∧ middle = after := by
          rw [hwalk] at h
          dsimp only at h
          split at h
          · cases h
            exact ⟨Or.inl rfl, rfl⟩
          · split at h
            · cases h
              exact ⟨Or.inr rfl, rfl⟩
            · cases h
        have hcontains : g.containsView v parent = (g.childAt? v parent.segments).isSome := by
          rw [containsView, locate?_eq_childAt?]
        cases walked_of_descendFrom hgenerator hsound hv hwalk with
        | there htarget => exact .all (Or.inr (Or.inr (by rw [hcontains, htarget]; rfl)))
        | made hway hfirst hbranched htarget =>
            have hnowhere : g.containsView v parent = false := by
              rw [hcontains, hway, childAt?_through_free hfirst hbranched.free]
              rfl
            refine .branch ?_ herror hway hfirst hbranched
            rintro (hempty | rfl | hview)
            · exact hname hempty
            · rw [containsView, locate?, hwalk] at hnowhere
              cases hnowhere
            · rw [hnowhere] at hview
              cases hview

/--
What a refusal leaves of a graph that was at most extended before.  The literals of
its views stay, and so do their children, but for one new child where the walk has
left the old views.
-/
theorem Leaves.children (h : Leaves middle v parent name generator e after) (hsound : g.Sound)
    (hgrown : Grown g.size g middle) (hv : v < g.size) :
    (∀ u < g.size, ∀ bucket, after.held u bucket = g.held u bucket) ∧
      ((g.MakesNothing v parent name generator ∧
          ∀ u < g.size, ∀ wanted, after.child? u wanted = g.child? u wanted) ∨
        ¬ g.MakesNothing v parent name generator ∧
          (e = .cyclicAlias name parent.text ∨ e = .viewExists name parent.text) ∧
          ∃ first free rest w fresh, parent.segments = first ++ free :: rest ∧
            g.childAt? v first = some w ∧ g.child? w free = none ∧ g.size ≤ fresh ∧
            ∀ u < g.size, ∀ wanted, after.child? u wanted =
              if u = w ∧ wanted = free then some fresh else g.child? u wanted) := by
  have hheld : ∀ u < g.size, ∀ bucket, middle.held u bucket = g.held u bucket := by
    intro u hu bucket
    rw [BeliefGraph.held, BeliefGraph.held, hgrown.kept u hu]
  have hchild : ∀ u < g.size, ∀ wanted, middle.child? u wanted = g.child? u wanted := by
    intro u hu wanted
    rw [child?, child?, hgrown.kept u hu]
  have hways := hsound.childAt?_congr hchild hv
  have hnothing : middle.MakesNothing v parent name generator ↔
      g.MakesNothing v parent name generator := by
    rw [MakesNothing, MakesNothing, containsView, containsView, locate?_eq_childAt?,
      locate?_eq_childAt?, hways]
  cases h with
  | all hsettled => exact ⟨hheld, Or.inl ⟨hnothing.1 hsettled, hchild⟩⟩
  | @branch _ first rest free w fresh hmakes herror hway hfirst hbranched =>
      have hold : ∀ u < g.size, u < middle.size := fun u hu => Nat.lt_of_lt_of_le hu hgrown.size
      rw [hways] at hfirst
      have hw := hsound.lt_of_childAt? hv hfirst
      refine ⟨fun u hu bucket => (hbranched.held (hold u hu) bucket).trans (hheld u hu bucket),
        Or.inr ⟨fun h => hmakes (hnothing.2 h), herror, first, free, rest, w, fresh, hway, hfirst,
          (hchild w hw free).symm.trans hbranched.free,
          Nat.le_trans hgrown.size hbranched.new, ?_⟩⟩
      intro u hu wanted
      rw [hbranched.child? (hold u hu), hchild u hu]

/-- A copy has the name of its original. -/
theorem name_copy (hchild : child < g.size) (s : Store) :
    ((copy child (g, s)).2.1.view (copy child (g, s)).1).name = (g.view child).name := by
  obtain ⟨n, hn⟩ : ∃ n, g.size = n + 1 := Nat.exists_eq_add_one.2 (Nat.zero_lt_of_lt hchild)
  have hcopy : copy child (g, s) = copyTo (n + 1) child (g, s) := by rw [← hn]; rfl
  rw [hcopy, copyTo_succ, finishCopy, view_put, if_pos rfl]

theorem Attaches.leaves (hsound : g.Sound) (hv : v < g.size) (hchild : child < g.size)
    (hgenerator : ∀ generate ∈ generator, Generates generate)
    (h : g.Attaches v parent child generator (.error e) after) :
    ∃ middle, Grown g.size g middle ∧
      Leaves middle v parent (g.view child).name generator e after := by
  generalize hresult : Except.error e = result at h
  cases h with
  | hang =>
      exact ⟨g, .refl hsound.fenced_size,
        leaves_of_hang hsound hv hgenerator (Prod.ext hresult.symm rfl)⟩
  | addCopy s =>
      have hsprout := hsound.sprout_copy hchild s
      refine ⟨(copy child (g, s)).2.1, hsprout.grown, ?_⟩
      rw [← name_copy hchild s]
      exact leaves_of_hang hsprout.grown.fenced.sound
        (Nat.lt_of_lt_of_le hv hsprout.grown.size) hgenerator (Prod.ext hresult.symm rfl)

/--
A refusal changes no literal of the views that were there.  Their paths are the
same exactly if the walk makes nothing; otherwise the view at its end is the
reason, and one old view has one new child that stays.
-/
theorem refused_attachment (hbuilt : Built g) (hv : v < g.size) (hchild : child < g.size)
    (hprovided : Provided generator)
    (hrefused : g.Attaches v parent child generator (.error e) after) :
    (∀ u < g.size, ∀ bucket, after.held u bucket = g.held u bucket) ∧
      ((∀ u < g.size, ∀ path, after.containsView u path = g.containsView u path) ↔
        g.MakesNothing v parent (g.view child).name generator) ∧
      (¬ g.MakesNothing v parent (g.view child).name generator →
        (e = .cyclicAlias (g.view child).name parent.text ∨
            e = .viewExists (g.view child).name parent.text) ∧
          ∃ first free rest w fresh, parent.segments = first ++ free :: rest ∧
            g.childAt? v first = some w ∧ g.child? w free = none ∧ g.size ≤ fresh ∧
            ∀ u < g.size, ∀ wanted, after.child? u wanted =
              if u = w ∧ wanted = free then some fresh else g.child? u wanted) := by
  have hsound := hbuilt.sound
  obtain ⟨middle, hgrown, hleaves⟩ := hrefused.leaves hsound hv hchild hprovided.generates
  obtain ⟨hheld, hsame | ⟨hmakes, herror, hbranch⟩⟩ := hleaves.children hsound hgrown hv
  · obtain ⟨hnothing, hchildren⟩ := hsame
    refine ⟨hheld, iff_of_true (fun u hu path => ?_) hnothing, fun h => absurd hnothing h⟩
    rw [containsView, containsView, locate?_eq_childAt?, locate?_eq_childAt?,
      hsound.childAt?_congr hchildren hu]
  · refine ⟨hheld, iff_of_false (fun hpaths => ?_) hmakes, fun _ => ⟨herror, hbranch⟩⟩
    obtain ⟨first, free, rest, w, fresh, -, hfirst, hfree, -, hchildren⟩ := hbranch
    have hw := hsound.lt_of_childAt? hv hfirst
    have hpath := hpaths w hw ⟨[free]⟩
    rw [containsView, containsView, locate?_eq_childAt?, locate?_eq_childAt?, childAt?_cons,
      childAt?_cons, hchildren w hw, if_pos ⟨rfl, rfl⟩, hfree] at hpath
    cases hpath

end Refusals

/-- A root with a view `a`. -/
def single : BeliefGraph := ((rooted.create "a").1.hang root .empty 1 none).2

theorem built_single : Built single :=
  .hang .empty (.create "a" (.create "" .empty)) (by decide) (by decide) .none

/-- The view `a` is refused below `a/x`, which closes a cycle; the new view `a/x` stays. -/
theorem refused_attachment_below_itself :
    (single.hang root ⟨["a", "x"]⟩ 1 (some blank)).1 = .error (.cyclicAlias "a" "a/x") ∧
      ¬ ∀ u < single.size, ∀ path,
        (single.hang root ⟨["a", "x"]⟩ 1 (some blank)).2.containsView u path =
          single.containsView u path := by
  refine ⟨rfl, ?_⟩
  have hrefused : single.Attaches root ⟨["a", "x"]⟩ 1 (some blank)
      (.error (.cyclicAlias "a" "a/x")) _ := .hang
  obtain ⟨-, hpaths, -⟩ :=
    refused_attachment built_single (by decide) (by decide) .blank hrefused
  rw [hpaths]
  rintro (hname | hgenerator | hview)
  · exact absurd hname (by decide)
  · cases hgenerator
  · cases hview

/-- A refused view does not always leave the paths of views as they were. -/
theorem refused_attachment_not_atomic :
    ¬ ∀ (g after : BeliefGraph) (v child : ViewId) (parent : Path)
        (generator : Option ViewGenerator) (e : BeliefError), Built g → v < g.size →
      child < g.size → Provided generator →
        g.Attaches v parent child generator (.error e) after →
          ∀ path, after.containsView v path = g.containsView v path := by
  intro h
  have hviews := h single _ root 1 ⟨["a", "x"]⟩ (some blank) (.cyclicAlias "a" "a/x")
    built_single (by decide) (by decide) .blank .hang ⟨["a", "x"]⟩
  cases hviews

end BeliefGraph

end Deliberation
