import Deliberation.Belief.Graph
import Deliberation.Proofs.Path.Normal
import Deliberation.Proofs.Term.Equality

/-!
# Literals with normal functors

A literal with a normal functor is kept in its view under its own name alone and
gets its functor back unchanged.  Which literals are equal can be told from the
view and from what is kept there.
-/

namespace Deliberation

/-- A path that is not empty is the path of its parent and its last segment. -/
theorem Symbol.path_eq_iff {f : Symbol} (hname : f.name ≠ "") (p : Path) :
    f.path = p ↔ f.view.segments = p.parent.segments ∧ f.name = p.last := by
  obtain ⟨segments⟩ := p
  rcases List.eq_nil_or_concat segments with rfl | ⟨front, last, rfl⟩
  · simp [path, Path.last, hname]
  · simp [path, Path.last, Path.parent]

namespace Symbol

theorem path_of_ofPath? {p : Path} {f : Symbol} (h : ofPath? p = some f) : f.path = p := by
  unfold ofPath? at h
  split at h
  · cases h
  · next hempty =>
      cases h
      exact congrArg Path.mk (Path.parent_concat_last (Bool.eq_false_iff.2 hempty))

theorem exists_path_eq {p : Path} (hp : p.isEmpty = false) : ∃ f : Symbol, f.path = p :=
  ⟨⟨p.parent, p.last⟩, congrArg Path.mk (Path.parent_concat_last hp)⟩

/-- A path is empty or the path of a functor. -/
@[elab_as_elim]
theorem path_cases {motive : Path → Prop} (empty : motive .empty)
    (functor : ∀ f : Symbol, motive f.path) (p : Path) : motive p := by
  cases hp : p.isEmpty with
  | true =>
      obtain ⟨segments⟩ := p
      obtain rfl := List.isEmpty_iff.1 hp
      exact empty
  | false =>
      obtain ⟨f, rfl⟩ := exists_path_eq hp
      exact functor f

/-- The functor that a key is read as has normal segments. -/
theorem normal_of_ofPath? {key : String} {f : Symbol} (h : ofPath? (Path.parse key) = some f) :
    f.path.Normal := by
  rw [path_of_ofPath? h]
  exact Path.normal_parse key

theorem isSegment_name {key : String} {f : Symbol} (h : ofPath? (Path.parse key) = some f) :
    Path.IsSegment f.name :=
  normal_of_ofPath? h f.name (List.mem_append_right _ List.mem_cons_self)

theorem isSegment_of_mem_view {key : String} {f : Symbol}
    (h : ofPath? (Path.parse key) = some f) {name : String} (hname : name ∈ f.view.segments) :
    Path.IsSegment name :=
  normal_of_ofPath? h name (List.mem_append_left _ hname)

theorem empty_not_mem_view {key : String} {f : Symbol}
    (h : ofPath? (Path.parse key) = some f) : "" ∉ f.view.segments :=
  fun hmem => (isSegment_of_mem_view h hmem).1 rfl

theorem ofPath?_parse_of_isSegment {key : String} (h : Path.IsSegment key) :
    ofPath? (Path.parse key) = some ⟨.empty, key⟩ := by
  rw [Path.parse_of_isSegment h]
  rfl

end Symbol

namespace Literal

/-- Whether the functor of a literal has the segments that reading a path gives. -/
def Normal (l : Literal) : Prop := l.functor.path.Normal

instance (l : Literal) : Decidable l.Normal := inferInstanceAs (Decidable l.functor.path.Normal)

theorem Normal.name {l : Literal} (h : l.Normal) : Path.IsSegment l.functor.name :=
  h l.functor.name (by simp [Symbol.path])

theorem Normal.view {l : Literal} (h : l.Normal) : "" ∉ l.functor.view.segments :=
  fun hmem => (h "" (by simp [Symbol.path, hmem])).1 rfl

theorem inView_of_isSegment {l : Literal} (h : Path.IsSegment l.functor.name) :
    l.inView = { l with functor := ⟨.empty, l.functor.name⟩ } := by
  unfold inView
  rw [Path.parse_of_isSegment h]
  rfl

theorem inView_of_normal {l : Literal} (h : l.Normal) :
    l.inView = { l with functor := ⟨.empty, l.functor.name⟩ } :=
  inView_of_isSegment h.name

theorem under_inView {l : Literal} (h : l.Normal) : l.inView.under l.functor.view = l := by
  obtain ⟨⟨view, name⟩, arguments, annotations, negated, marked⟩ := l
  rw [inView_of_normal h, under]
  congr 2
  exact congrArg Path.mk (List.append_nil view.segments)

theorem bucketOf_inView {l : Literal} (h : l.Normal) :
    BeliefGraph.bucketOf l.inView = ⟨l.negated, l.functor.name⟩ := by
  rw [inView_of_normal h]
  rfl

/-- Literals that are equal in their view are in one bucket of it. -/
theorem bucketOf_eq_of_equal {heap : Heap} {l m : Literal} (hequal : l.equal heap m = true) :
    BeliefGraph.bucketOf l = BeliefGraph.bucketOf m := by
  obtain ⟨⟨hfunctor, hnegated, -⟩, -⟩ := (equal_iff heap l m).1 hequal
  rw [BeliefGraph.bucketOf, BeliefGraph.bucketOf, hfunctor, hnegated]

/-- Equal literals are in one view and one bucket, and are equal there. -/
theorem equal_eq_inView (heap : Heap) {l m : Literal} (hl : l.Normal) (hm : m.Normal) :
    l.equal heap m =
      (decide (l.functor.view.segments = m.functor.view.segments ∧
        BeliefGraph.bucketOf l.inView = BeliefGraph.bucketOf m.inView) &&
      l.inView.equal heap m.inView) := by
  rw [Bool.eq_iff_iff, Bool.and_eq_true, decide_eq_true_iff, bucketOf_inView hl,
    bucketOf_inView hm, equal_iff, equal_iff, inView_of_normal hl, inView_of_normal hm]
  constructor
  · rintro ⟨⟨hfunctor, hnegated, hrest⟩, harguments⟩
    refine ⟨⟨?_, ?_⟩, ⟨?_, hnegated, hrest⟩, harguments⟩
    · rw [hfunctor]
    · rw [hfunctor, hnegated]
    · rw [hfunctor]
  · rintro ⟨⟨hview, hbucket⟩, ⟨-, hnegated, hrest⟩, harguments⟩
    obtain ⟨-, hname⟩ := Bucket.mk.inj hbucket
    have hfunctor : Symbol.mk ⟨l.functor.view.segments⟩ l.functor.name =
        Symbol.mk ⟨m.functor.view.segments⟩ m.functor.name := by rw [hview, hname]
    exact ⟨⟨hfunctor, hnegated, hrest⟩, harguments⟩

end Literal

end Deliberation
