import Deliberation.Proofs.Belief.Acyclic

/-!
# Walks that make views

A walk with a generator follows the views that are there until one is missing.
The view that is made then is new, it leads to new views only, and the rest of the
walk goes on among these.  So a walk changes at most one of the old views, by one
child under a name that was free.
-/

namespace Deliberation

open Relation

namespace BeliefGraph

/-! ## New branches -/

/-- What a graph has become when a new view, with new views below it, was hung below an old one. -/
structure Branched (g : BeliefGraph) (parent : ViewId) (name : String) (fresh : ViewId)
    (after : BeliefGraph) : Prop where
  old : parent < g.size
  free : g.child? parent name = none
  new : g.size ≤ fresh
  fenced : after.Fenced g.size
  view : ∀ u < g.size, after.view u =
    if u = parent then { g.view u with children := (g.view u).children.insert name fresh }
    else g.view u

section Branch

variable {g made middle after : BeliefGraph} {parent fresh : ViewId} {name : String}

/-- A new view is hung below an old one. -/
theorem Sprout.branched (hsprout : Sprout g made fresh) (hsound : g.Sound) (hold : parent < g.size)
    (hfree : g.child? parent name = none) :
    Branched g parent name fresh (made.attach parent name fresh) where
  old := hold
  free := hfree
  new := hsprout.new
  fenced :=
    { sound := (hsprout.attach hsound.fenced_zero (Nat.zero_le _) hold name).fenced.sound
      inside := by rw [size_attach]; exact hsprout.grown.size
      apart := by
        intro a b ha h
        rcases child_of_attach (Nat.lt_of_lt_of_le hold hsprout.grown.size) h with h | ⟨rfl, -⟩
        · exact hsprout.grown.fenced.apart ha h
        · exact absurd hold (Nat.not_lt_of_le ha) }
  view u hu := by
    rw [BeliefGraph.attach, view_update _ _ _ _ (Nat.lt_of_lt_of_le hold hsprout.grown.size),
      hsprout.grown.kept u hu]
    exact if_congr eq_comm rfl rfl

namespace Branched

theorem grow (hbranched : Branched g parent name fresh middle)
    (hgrown : Grown g.size middle after) : Branched g parent name fresh after where
  old := hbranched.old
  free := hbranched.free
  new := hbranched.new
  fenced := hgrown.fenced
  view u hu := (hgrown.kept u hu).trans (hbranched.view u hu)

variable (hbranched : Branched g parent name fresh after)

include hbranched

theorem child? {u : ViewId} (hu : u < g.size) (wanted : String) :
    after.child? u wanted =
      if u = parent ∧ wanted = name then some fresh else g.child? u wanted := by
  rw [BeliefGraph.child?, BeliefGraph.child?, hbranched.view u hu]
  by_cases hparent : u = parent <;> simp [hparent, eq_comm]

theorem held {u : ViewId} (hu : u < g.size) (bucket : Bucket) :
    after.held u bucket = g.held u bucket := by
  rw [BeliefGraph.held, BeliefGraph.held, hbranched.view u hu]
  split <;> rfl

/-- Children that were there stay. -/
theorem child?_some {u child : ViewId} {wanted : String} (h : g.child? u wanted = some child) :
    after.child? u wanted = some child := by
  rw [hbranched.child? (child_of_child? h).lt_size, if_neg]
  · exact h
  · rintro ⟨rfl, rfl⟩
    exact absurd (hbranched.free.symm.trans h) (by simp)

theorem childAt?_some {u target : ViewId} {way : List String}
    (h : g.childAt? u way = some target) : after.childAt? u way = some target := by
  induction way generalizing u with
  | nil => exact h
  | cons head rest ih =>
      rw [childAt?_cons] at h ⊢
      obtain ⟨child, hchild, hrest⟩ := Option.bind_eq_some_iff.1 h
      rw [hbranched.child?_some hchild]
      exact ih hrest

theorem child?_parent : after.child? parent name = some fresh := by
  rw [hbranched.child? hbranched.old, if_pos ⟨rfl, rfl⟩]

end Branched

end Branch

/-! ## Walks -/

/--
What a walk from a view along a way finds and leaves.  Either all the views are
there and the graph stays, or the way leaves the old views at a name that is free,
and a new branch stands there.
-/
inductive Walked (g : BeliefGraph) (v : ViewId) (way : List String) (target : ViewId) :
    BeliefGraph → Prop
  | there (htarget : g.childAt? v way = some target) : Walked g v way target g
  | made {first rest : List String} {name : String} {parent fresh : ViewId} {after : BeliefGraph}
      (hway : way = first ++ name :: rest) (hfirst : g.childAt? v first = some parent)
      (hbranched : Branched g parent name fresh after)
      (htarget : after.childAt? v way = some target) : Walked g v way target after

section Walks

variable {g after : BeliefGraph} {v target : ViewId} {way : List String}

/-- A walk ends at the view that its way leads to afterwards. -/
theorem Walked.childAt? (h : Walked g v way target after) : after.childAt? v way = some target := by
  cases h with
  | there htarget => exact htarget
  | made hway hfirst hbranched htarget => exact htarget

/-- What was there before a walk is found afterwards. -/
theorem Walked.childAt?_some (h : Walked g v way target after) {u found : ViewId}
    {other : List String} (hother : g.childAt? u other = some found) :
    after.childAt? u other = some found := by
  cases h with
  | there htarget => exact hother
  | made hway hfirst hbranched htarget => exact hbranched.childAt?_some hother

theorem Walked.cons {child : ViewId} {name : String} (hchild : g.child? v name = some child)
    (h : Walked g child way target after) : Walked g v (name :: way) target after := by
  have htarget : after.childAt? v (name :: way) = some target := by
    have hfirst : g.childAt? v [name] = some child := by
      rw [childAt?_cons, hchild]
      rfl
    have hkept := h.childAt?_some hfirst
    rw [← List.singleton_append, childAt?_append, hkept]
    exact h.childAt?
  cases h with
  | there _ => exact .there htarget
  | @made first rest free parent fresh after hway hfirst hbranched _ =>
      have hlonger : name :: way = (name :: first) ++ free :: rest := congrArg (name :: ·) hway
      refine .made hlonger ?_ hbranched htarget
      rw [childAt?_cons, hchild]
      exact hfirst

theorem walked_of_descendFrom {generator : Option ViewGenerator}
    (hgenerator : ∀ generate ∈ generator, Generates generate) {walked : Path} (hsound : g.Sound)
    (hv : v < g.size) (h : descendFrom generator way walked g v = .ok (after, target)) :
    Walked g v way target after := by
  induction way generalizing walked g v with
  | nil =>
      cases h
      exact .there rfl
  | cons name rest ih =>
      unfold descendFrom at h
      cases hchild : (g.view v).children.get? name with
      | some child =>
          rw [hchild] at h
          exact (ih hsound (hsound.closed (child_of_child? hchild)) h).cons hchild
      | none =>
          rw [hchild] at h
          cases generator with
          | none => cases h
          | some generate =>
              have hsprout := hgenerator generate rfl g name walked hsound
              have hbranched := hsprout.branched hsound hv hchild
              have hmade : (generate g name walked).2 <
                  ((generate g name walked).1.attach v name (generate g name walked).2).size := by
                rw [size_attach]
                exact hsprout.made
              -- from the new view on the walk stays among the new ones
              obtain ⟨hgrown, -⟩ :=
                grown_of_descendFrom hgenerator hbranched.fenced hsprout.new hmade h
              have hafter := hbranched.grow hgrown
              have hrest := (ih hbranched.fenced.sound hmade h).childAt?
              have hway : name :: rest = [] ++ name :: rest := rfl
              refine .made hway rfl hafter ?_
              rw [childAt?_cons, hafter.child?_parent]
              exact hrest

end Walks

end BeliefGraph

end Deliberation
