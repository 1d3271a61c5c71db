import Deliberation.Proofs.Belief.Changes
import Deliberation.Proofs.Belief.Normal
import Mathlib.Data.Finset.Basic

/-!
# Beliefs as a set in the order of insertion

Seen from its root, a tree of beliefs is a set of view paths, closed under
taking beginnings, and a list of literals of which no two are equal.  A change
of the tree and the change of this pair give the same answers, and every reading
of the tree can be made from the pair.
-/

namespace Deliberation

/-! ## The set -/

/-- The beginnings of a path from the shortest on, itself included. -/
def Path.beginnings (p : Path) : List Path := p.segments.inits.map Path.mk

theorem Path.mem_beginnings {p q : Path} : q ∈ p.beginnings ↔ q.segments <+: p.segments := by
  simp only [beginnings, List.mem_map, List.mem_inits]
  constructor
  · rintro ⟨segments, h, rfl⟩
    exact h
  · intro h
    exact ⟨q.segments, h, rfl⟩

theorem Path.startsWith_iff {p q : Path} : p.startsWith q = true ↔ q.segments <+: p.segments :=
  List.isPrefixOf_iff_prefix

/--
View paths, closed under taking beginnings, and literals in the order in which
they were added.  Each literal belongs to one of the views, and no two are equal.
-/
@[ext]
structure BeliefSet (heap : Heap) where
  views : Finset Path
  literals : List Literal
  closed : ∀ p ∈ views, ∀ q ∈ p.beginnings, q ∈ views
  homed : ∀ l ∈ literals, l.functor.view ∈ views
  distinct : literals.Pairwise fun m l => m.equal heap l = false

/-- What can be asked of a store of beliefs. -/
inductive BeliefChange where
  /-- Add a literal, making the views that are missing or not. -/
  | add (l : Literal) (create : Bool)
  | remove (l : Literal)
  | removeView (p : Path)

/-- Whether the functor or path of a change has the segments that reading a path gives. -/
def BeliefChange.Normal : BeliefChange → Prop
  | .add l _ => l.Normal
  | .remove l => l.Normal
  | .removeView p => p.Normal

instance : (c : BeliefChange) → Decidable c.Normal
  | .add l _ => inferInstanceAs (Decidable l.Normal)
  | .remove l => inferInstanceAs (Decidable l.Normal)
  | .removeView p => inferInstanceAs (Decidable p.Normal)

/-- Make changes in turn; the answers come in order. -/
def BeliefChange.run {σ : Type} (change : σ → BeliefChange → Except BeliefError Bool × σ)
    (s : σ) : List BeliefChange → List (Except BeliefError Bool) × σ
  | [] => ([], s)
  | c :: rest =>
      let first := change s c
      let behind := run change first.2 rest
      (first.1 :: behind.1, behind.2)

namespace BeliefSet

variable {heap : Heap}

/-- The root alone. -/
def initial (heap : Heap) : BeliefSet heap where
  views := {.empty}
  literals := []
  closed p hp q hq := by
    rw [Finset.mem_singleton.1 hp] at hq
    rw [Finset.mem_singleton]
    exact List.mem_singleton.1 hq
  homed _ hl := absurd hl List.not_mem_nil
  distinct := List.Pairwise.nil

/-- Whether an equal literal is in the list. -/
def holds (s : BeliefSet heap) (l : Literal) : Bool :=
  s.literals.any fun m => m.equal heap l

/-- The shortest beginning of a path that is not the path of a view. -/
def missing? (s : BeliefSet heap) (p : Path) : Option Path :=
  p.beginnings.find? fun q => q ∉ s.views

/-- Put a literal that is not held behind the others, and open its view. -/
def insert (s : BeliefSet heap) (l : Literal) (hnew : s.holds l = false) : BeliefSet heap where
  views := s.views ∪ l.functor.view.beginnings.toFinset
  literals := s.literals ++ [l]
  closed p hp q hq := by
    rw [Finset.mem_union, List.mem_toFinset] at hp ⊢
    rcases hp with hp | hp
    · exact Or.inl (s.closed p hp q hq)
    · refine Or.inr (Path.mem_beginnings.2 ?_)
      exact (Path.mem_beginnings.1 hq).trans (Path.mem_beginnings.1 hp)
  homed m hm := by
    rw [Finset.mem_union, List.mem_toFinset]
    rcases List.mem_append.1 hm with hm | hm
    · exact Or.inl (s.homed m hm)
    · rw [List.mem_singleton.1 hm]
      exact Or.inr (Path.mem_beginnings.2 List.prefix_rfl)
  distinct := by
    refine List.pairwise_append.2 ⟨s.distinct, List.pairwise_singleton _ _, ?_⟩
    intro m hm other hother
    rw [List.mem_singleton.1 hother]
    simpa using List.any_eq_false.1 hnew m hm

/-- Drop all literals equal to one. -/
def erase (s : BeliefSet heap) (l : Literal) : BeliefSet heap where
  views := s.views
  literals := s.literals.filter fun m => !m.equal heap l
  closed := s.closed
  homed m hm := s.homed m (List.mem_of_mem_filter hm)
  distinct := s.distinct.filter _

/-- Drop the views at and below a path with the literals in them. -/
def clear (s : BeliefSet heap) (p : Path) : BeliefSet heap where
  views := s.views.filter fun q => ¬q.startsWith p
  literals := s.literals.filter fun l => ¬l.functor.view.startsWith p
  closed q hq r hr := by
    rw [Finset.mem_filter] at hq ⊢
    refine ⟨s.closed q hq.1 r hr, ?_⟩
    intro hstarts
    refine hq.2 (Path.startsWith_iff.2 ?_)
    exact (Path.startsWith_iff.1 hstarts).trans (Path.mem_beginnings.1 hr)
  homed l hl := by
    rw [List.mem_filter] at hl
    rw [Finset.mem_filter]
    exact ⟨s.homed l hl.1, by simpa using hl.2⟩
  distinct := s.distinct.filter _

/--
Make a change.  Without leave to make views, adding is an error where the view
of the literal is missing.  The root cannot be taken out.
-/
def change (s : BeliefSet heap) : BeliefChange → Except BeliefError Bool × BeliefSet heap
  | .add l create =>
      match create, s.missing? l.functor.view with
      | false, some p => (.error (.viewNotFound p.text), s)
      | _, _ =>
          if hheld : s.holds l = false then (.ok true, s.insert l hheld)
          else (.ok false, s)
  | .remove l => (.ok (s.holds l), s.erase l)
  | .removeView p =>
      if p.isEmpty then (.ok false, s)
      else (.ok (decide (p ∈ s.views)), s.clear p)

end BeliefSet

/-- Make a change below the root; a change that is an error leaves the graph as it is. -/
def BeliefGraph.change (heap : Heap) (g : BeliefGraph) :
    BeliefChange → Except BeliefError Bool × BeliefGraph
  | .add l create =>
      match g.add heap root l (if create then some blank else none) with
      | .ok (added, after) => (.ok added, after)
      | .error e => (.error e, g)
  | .remove l => (.ok (g.remove heap root l).1, (g.remove heap root l).2)
  | .removeView p => (.ok (g.removeView root p).1, (g.removeView root p).2)

/-! ## The tree and the set -/

namespace BeliefGraph

variable {heap : Heap}

/-- A tree has the views of a set, and its buckets hold the literals of the set in their order. -/
structure Represents (g : BeliefGraph) (s : BeliefSet heap) : Prop where
  tree : g.IsTree
  views : ∀ p, p ∈ s.views ↔ (g.childAt? root p.segments).isSome
  normal : ∀ l ∈ s.literals, l.Normal
  held : ∀ way bucket, g.heldAt way bucket =
    (s.literals.filter fun l =>
      l.functor.view.segments = way ∧ bucketOf l.inView = bucket).map Literal.inView

/-- The outcomes of changes agree: the answers are the same, and the tree represents the set. -/
structure Agree {α : Type} (tree : α × BeliefGraph) (set : α × BeliefSet heap) : Prop where
  answer : tree.1 = set.1
  state : tree.2.Represents set.2

theorem represents_initial : rooted.Represents (BeliefSet.initial heap) where
  tree := isTree_rooted
  views p := by
    rw [childAt?_rooted]
    obtain ⟨segments⟩ := p
    cases segments <;> simp [BeliefSet.initial, Path.empty]
  normal _ hl := absurd hl List.not_mem_nil
  held way bucket := heldAt_rooted way bucket

namespace Represents

variable {g : BeliefGraph} {s : BeliefSet heap} {l : Literal}

theorem containsLiteral_eq_holds (h : g.Represents s) (hl : l.Normal) :
    g.containsLiteral heap root l = s.holds l := by
  rw [containsLiteral_eq, h.held, List.any_map, List.any_filter, BeliefSet.holds, Bool.eq_iff_iff,
    List.any_eq_true, List.any_eq_true]
  refine exists_congr fun m => and_congr_right ?_
  intro hm
  rw [Literal.equal_eq_inView heap (h.normal m hm) hl]
  rfl

theorem containsView_iff (h : g.Represents s) (p : Path) :
    g.containsView root p = true ↔ p ∈ s.views := by
  rw [containsView_eq, h.views]

/-- The literals of a bucket get back their functors, which are all the same. -/
theorem matching_eq_filter (h : g.Represents s) (negated : Bool) (functor : Path) :
    g.matching root negated functor =
      s.literals.filter fun l => l.negated = negated ∧ l.functor.path = functor := by
  rw [matching_eq, h.held, List.map_map]
  have hplace : ∀ l ∈ s.literals,
      (l.functor.view.segments = functor.parent.segments ∧
        bucketOf l.inView = ⟨negated, functor.last⟩) ↔
      (l.negated = negated ∧ l.functor.path = functor) := by
    intro l hl
    have hnormal := h.normal l hl
    rw [Literal.bucketOf_inView hnormal, Symbol.path_eq_iff hnormal.name.1, Bucket.mk.injEq]
    exact and_left_comm
  have hfilter : (s.literals.filter fun l => l.functor.view.segments = functor.parent.segments ∧
      bucketOf l.inView = ⟨negated, functor.last⟩) =
        s.literals.filter fun l => l.negated = negated ∧ l.functor.path = functor :=
    List.filter_congr fun l hl => decide_eq_decide.2 (hplace l hl)
  rw [hfilter]
  refine (List.map_congr_left ?_).trans (List.map_id _)
  intro l hl
  obtain ⟨hmem, hfunctor⟩ := List.mem_filter.1 hl
  have hview : l.functor.view = functor.parent :=
    congrArg Path.mk ((hplace l hmem).2 (of_decide_eq_true hfunctor)).1
  rw [Function.comp_apply, ← hview]
  exact Literal.under_inView (h.normal l hmem)

/-! ### Changes -/

theorem add (h : g.Represents s) (hl : l.Normal) (hnew : s.holds l = false)
    {after : BeliefGraph} (hadded : Added g l after) : after.Represents (s.insert l hnew) where
  tree := hadded.tree
  views p := by
    rw [hadded.views, ← h.views, ← Path.mem_beginnings]
    simp [BeliefSet.insert]
  normal m hm := by
    rcases List.mem_append.1 hm with hm | hm
    · exact h.normal m hm
    · rw [List.mem_singleton.1 hm]
      exact hl
  held way bucket := by
    rw [hadded.held, h.held]
    by_cases hplace : l.functor.view.segments = way ∧ bucketOf l.inView = bucket
    · simp [BeliefSet.insert, hplace]
    · simp [BeliefSet.insert, hplace]

theorem remove (h : g.Represents s) (hl : l.Normal) {after : BeliefGraph}
    (hremoved : Removed heap g l after) : after.Represents (s.erase l) where
  tree := hremoved.tree
  views p := by
    rw [hremoved.views]
    exact h.views p
  normal m hm := h.normal m (List.mem_of_mem_filter hm)
  held way bucket := by
    rw [hremoved.held, h.held, BeliefSet.erase, List.filter_filter]
    by_cases hplace : l.functor.view.segments = way ∧ bucketOf l.inView = bucket
    · obtain ⟨rfl, rfl⟩ := hplace
      rw [if_pos ⟨rfl, rfl⟩, List.filter_map, List.filter_filter]
      refine congrArg _ (List.filter_congr ?_)
      intro m hm
      rw [Literal.equal_eq_inView heap (h.normal m hm) hl, Function.comp_apply, Bool.and_comm]
      cases decide (m.functor.view.segments = l.functor.view.segments ∧
        bucketOf m.inView = bucketOf l.inView) <;> rfl
    · rw [if_neg hplace]
      refine congrArg _ (List.filter_congr ?_)
      intro m hm
      -- A literal of another bucket is not equal to the removed one.
      rw [Literal.equal_eq_inView heap (h.normal m hm) hl]
      by_cases hother : m.functor.view.segments = way ∧ bucketOf m.inView = bucket
      · obtain ⟨rfl, rfl⟩ := hother
        have happart : ¬(m.functor.view.segments = l.functor.view.segments ∧
            bucketOf m.inView = bucketOf l.inView) :=
          fun hsame => hplace ⟨hsame.1.symm, hsame.2.symm⟩
        simp [happart]
      · simp [hother]

theorem clear (h : g.Represents s) {p : Path} {after : BeliefGraph}
    (hcleared : Cleared g p after) : after.Represents (s.clear p) where
  tree := hcleared.tree
  views q := by
    rw [hcleared.views]
    have hq := h.views q
    by_cases hstarts : p.segments <+: q.segments
    · simp [BeliefSet.clear, hstarts, Path.startsWith_iff]
    · simp [BeliefSet.clear, hstarts, Path.startsWith_iff, hq]
  normal m hm := h.normal m (List.mem_of_mem_filter hm)
  held way bucket := by
    rw [hcleared.held, h.held, BeliefSet.clear, List.filter_filter]
    by_cases hstarts : p.segments <+: way
    · rw [if_pos hstarts, eq_comm, List.map_eq_nil_iff, List.filter_eq_nil_iff]
      intro l _
      simp only [Bool.and_eq_true, decide_eq_true_eq, Path.startsWith_iff, not_and, not_not]
      rintro ⟨rfl, -⟩
      exact hstarts
    · rw [if_neg hstarts]
      refine congrArg _ (List.filter_congr ?_)
      intro l _
      rw [← Bool.decide_and, decide_eq_decide, Path.startsWith_iff, iff_self_and]
      rintro ⟨rfl, -⟩
      exact hstarts

/-- The shortest beginning of a path without a view is the same in the tree and in the set. -/
theorem find_missing (h : g.Represents s) (p : Path) :
    p.segments.inits.find? (fun first => (g.childAt? root first).isNone) =
      (s.missing? p).map Path.segments := by
  have hid : Path.segments ∘ Path.mk = id := rfl
  rw [BeliefSet.missing?, Path.beginnings, List.find?_map, Option.map_map, hid, Option.map_id]
  congr 1
  funext first
  have hviews := h.views ⟨first⟩
  cases hfirst : g.childAt? root first <;> simp_all

theorem missing?_eq_none_iff (h : g.Represents s) (p : Path) :
    s.missing? p = none ↔ g.containsView root p = true := by
  rw [h.containsView_iff, BeliefSet.missing?, List.find?_eq_none]
  constructor
  · intro hall
    simpa using hall p (Path.mem_beginnings.2 List.prefix_rfl)
  · intro hp q hq
    simpa using s.closed p hp q hq

end Represents

end BeliefGraph

namespace BeliefSet

variable {heap : Heap}

theorem erase_of_not_holds {s : BeliefSet heap} {l : Literal} (hheld : s.holds l = false) :
    s.erase l = s := by
  refine BeliefSet.ext rfl (List.filter_eq_self.2 ?_)
  intro m hm
  simpa using List.any_eq_false.1 hheld m hm

theorem clear_of_not_mem {s : BeliefSet heap} {p : Path} (hp : p ∉ s.views) : s.clear p = s := by
  have happart : ∀ q ∈ s.views, ¬q.startsWith p := by
    intro q hq hstarts
    exact hp (s.closed q hq p (Path.mem_beginnings.2 (Path.startsWith_iff.1 hstarts)))
  refine BeliefSet.ext (Finset.filter_true_of_mem happart) (List.filter_eq_self.2 ?_)
  intro l hl
  simpa using happart l.functor.view (s.homed l hl)

end BeliefSet

namespace BeliefGraph

variable {heap : Heap} {g : BeliefGraph} {s : BeliefSet heap}

/-! ### One change -/

theorem Represents.change_add_of_holds (h : g.Represents s) {l : Literal} (hl : l.Normal)
    (hheld : s.holds l = true) (create : Bool) :
    g.change heap (.add l create) = (.ok false, g) := by
  rw [← h.containsLiteral_eq_holds hl] at hheld
  simp only [BeliefGraph.change, add_of_contains hheld]

/-- Where views may be made or the view is there, a new literal is added. -/
theorem Represents.change_add_of_new (h : g.Represents s) {l : Literal} (hl : l.Normal)
    (hnew : s.holds l = false) {create : Bool}
    (hopen : create = true ∨ s.missing? l.functor.view = none) :
    Agree (g.change heap (.add l create)) (.ok true, s.insert l hnew) := by
  have hcontains : g.containsLiteral heap root l = false :=
    (h.containsLiteral_eq_holds hl).trans hnew
  obtain ⟨after, hadd, hadded⟩ : ∃ after,
      g.add heap root l (if create then some blank else none) = .ok (true, after) ∧
        Added g l after := by
    cases create with
    | true => exact add_blank_of_not_contains h.tree hcontains
    | false =>
        have hview : s.missing? l.functor.view = none := hopen.resolve_left Bool.false_ne_true
        exact add_none_of_not_contains h.tree ((h.missing?_eq_none_iff _).1 hview) hcontains
  simp only [BeliefGraph.change, hadd]
  exact ⟨rfl, h.add hl hnew hadded⟩

theorem Represents.change_add_of_missing (h : g.Represents s) {l : Literal} (hl : l.Normal)
    {p : Path} (hmissing : s.missing? l.functor.view = some p) :
    g.change heap (.add l false) = (.error (.viewNotFound p.text), g) := by
  have hfind := h.find_missing l.functor.view
  rw [hmissing] at hfind
  have herror : g.add heap root l none = .error (.viewNotFound p.text) :=
    add_none_of_missing hl.view hfind
  simp only [BeliefGraph.change, herror, Bool.false_eq_true, if_false]

theorem Represents.change_add (h : g.Represents s) {l : Literal} (hl : l.Normal)
    (create : Bool) : Agree (g.change heap (.add l create)) (s.change (.add l create)) := by
  have hknown : (create = true ∨ s.missing? l.functor.view = none) →
      Agree (g.change heap (.add l create)) (s.change (.add l create)) := by
    intro hopen
    have hset : s.change (.add l create) =
        if hheld : s.holds l = false then (.ok true, s.insert l hheld) else (.ok false, s) := by
      rcases hopen with rfl | hnone
      · rfl
      · simp only [BeliefSet.change, hnone]
    rw [hset]
    by_cases hheld : s.holds l = false
    · rw [dif_pos hheld]
      exact h.change_add_of_new hl hheld hopen
    · rw [dif_neg hheld, h.change_add_of_holds hl (by simpa using hheld)]
      exact ⟨rfl, h⟩
  cases create with
  | true => exact hknown (Or.inl rfl)
  | false =>
      cases hmissing : s.missing? l.functor.view with
      | none => exact hknown (Or.inr hmissing)
      | some p =>
          rw [h.change_add_of_missing hl hmissing]
          simp only [BeliefSet.change, hmissing]
          exact ⟨rfl, h⟩

theorem Represents.change_remove (h : g.Represents s) {l : Literal} (hl : l.Normal) :
    Agree (g.change heap (.remove l)) (s.change (.remove l)) := by
  have hcontains := h.containsLiteral_eq_holds hl
  simp only [BeliefGraph.change, BeliefSet.change]
  cases hheld : s.holds l with
  | true =>
      obtain ⟨kept, hremove, hremoved⟩ := remove_of_contains h.tree (hcontains.trans hheld)
      rw [hremove]
      exact ⟨rfl, h.remove hl hremoved⟩
  | false =>
      rw [remove_of_not_contains (hcontains.trans hheld), BeliefSet.erase_of_not_holds hheld]
      exact ⟨rfl, h⟩

theorem Represents.change_removeView (h : g.Represents s) (p : Path) :
    Agree (g.change heap (.removeView p)) (s.change (.removeView p)) := by
  simp only [BeliefGraph.change, BeliefSet.change]
  cases hempty : p.isEmpty with
  | true =>
      have hroot : g.removeView root p = (false, g) := if_pos hempty
      rw [hroot, if_pos rfl]
      exact ⟨rfl, h⟩
  | false =>
      rw [if_neg Bool.false_ne_true]
      by_cases hp : p ∈ s.views
      · obtain ⟨kept, hremove, hcleared⟩ :=
          removeView_of_contains h.tree hempty ((h.containsView_iff p).2 hp)
        rw [hremove, decide_eq_true hp]
        exact ⟨rfl, h.clear hcleared⟩
      · have hnone : g.containsView root p = false :=
          Bool.eq_false_iff.2 (mt (h.containsView_iff p).1 hp)
        rw [removeView_of_not_contains hnone, decide_eq_false hp, BeliefSet.clear_of_not_mem hp]
        exact ⟨rfl, h⟩

theorem Represents.change (h : g.Represents s) {c : BeliefChange} (hc : c.Normal) :
    Agree (g.change heap c) (s.change c) := by
  cases c with
  | add l create => exact h.change_add hc create
  | remove l => exact h.change_remove hc
  | removeView p => exact h.change_removeView p

/-! ### Changes in turn -/

theorem Represents.run (h : g.Represents s) (changes : List BeliefChange)
    (hnormal : ∀ c ∈ changes, c.Normal) :
    Agree (BeliefChange.run (BeliefGraph.change heap) g changes)
      (BeliefChange.run BeliefSet.change s changes) := by
  induction changes generalizing g s with
  | nil => exact ⟨rfl, h⟩
  | cons c rest ih =>
      have hfirst := h.change (hnormal c List.mem_cons_self)
      have hrest := ih hfirst.state fun d hd => hnormal d (List.mem_cons_of_mem c hd)
      exact ⟨congrArg₂ List.cons hfirst.answer hrest.answer, hrest.state⟩

/--
The tree of beliefs is a set in the order of insertion.  Whatever is added,
removed and taken out in turn, the tree gives the answers of the set, has its
views, holds the literals equal to one of its, and lists those with a negation
flag and a functor in the order of the set, with their full functors.
-/
theorem tree_refines_set (heap : Heap) (changes : List BeliefChange)
    (hnormal : ∀ c ∈ changes, c.Normal) :
    let tree := BeliefChange.run (BeliefGraph.change heap) rooted changes
    let set := BeliefChange.run BeliefSet.change (BeliefSet.initial heap) changes
    tree.1 = set.1 ∧
    (∀ p, tree.2.containsView root p = true ↔ p ∈ set.2.views) ∧
    (∀ l, l.Normal → tree.2.containsLiteral heap root l = set.2.holds l) ∧
    ∀ negated functor, tree.2.matching root negated functor =
      set.2.literals.filter fun l => l.negated = negated ∧ l.functor.path = functor := by
  intro tree set
  obtain ⟨hanswers, hrepresents⟩ := represents_initial.run changes hnormal
  refine ⟨hanswers, hrepresents.containsView_iff, ?_, hrepresents.matching_eq_filter⟩
  intro l hl
  exact hrepresents.containsLiteral_eq_holds hl

/-- A literal below a view that is missing, made, filled and taken out again. -/
theorem tree_refines_set_taken_out :
    (BeliefChange.run (BeliefGraph.change .empty) rooted
      [.add ⟨⟨⟨["a", "b"]⟩, "c"⟩, [.raw (.int 1)], [], false, false⟩ false,
        .add ⟨⟨⟨["a", "b"]⟩, "c"⟩, [.raw (.int 1)], [], false, false⟩ true,
        .add ⟨⟨⟨["a", "b"]⟩, "c"⟩, [.raw (.int 1)], [], false, false⟩ false,
        .removeView ⟨["a"]⟩,
        .remove ⟨⟨⟨["a", "b"]⟩, "c"⟩, [.raw (.int 1)], [], false, false⟩]).1 =
      [.error (.viewNotFound "a"), .ok true, .ok false, .ok true, .ok false] :=
  (tree_refines_set .empty _ (by decide)).1.trans (by rfl)

/-- The root is at the empty path and cannot be taken out: the literals in it stay. -/
theorem removeView_empty_keeps_root :
    let changes : List BeliefChange :=
      [.add ⟨⟨.empty, "a"⟩, [], [], false, false⟩ false, .removeView .empty]
    let tree := BeliefChange.run (BeliefGraph.change .empty) rooted changes
    tree.1 = [.ok true, .ok false] ∧ tree.2.containsView root .empty = true ∧
      tree.2.containsLiteral .empty root ⟨⟨.empty, "a"⟩, [], [], false, false⟩ = true :=
  ⟨rfl, rfl, rfl⟩

end BeliefGraph

end Deliberation
