import Deliberation.Proofs.Belief.Refinement

/-!
# Literals under their names

A view keeps literals in buckets without the path that leads to the view.  Where
every literal is kept under its own name and flag of negation, as changes with
normal functors leave it, the literals with a functor are found in one bucket:
looking there misses none and finds no other.
-/

namespace Deliberation

namespace BeliefGraph

/-- Every literal in or below a view is kept in the bucket of its name, and has no further path. -/
def Filed (g : BeliefGraph) (v : ViewId) : Prop :=
  ∀ {way target bucket}, g.childAt? v way = some target →
    ∀ l ∈ g.held target bucket, l.functor = ⟨.empty, bucket.name⟩ ∧ l.negated = bucket.negated

/-- A literal is kept in or below a view; its functor leads there from the view. -/
def Stores (g : BeliefGraph) (v : ViewId) (l : Literal) : Prop :=
  ∃ way target bucket, g.childAt? v way = some target ∧
    ∃ kept ∈ g.held target bucket, kept.under ⟨way⟩ = l

variable {g : BeliefGraph} {v : ViewId}

theorem matching_path (g : BeliefGraph) (v : ViewId) (negated : Bool) (f : Symbol) :
    g.matching v negated f.path =
      ((g.childAt? v f.view.segments).elim [] fun target =>
        g.held target ⟨negated, f.name⟩).map (Literal.under f.view) := by
  have hparent : f.path.parent = f.view := congrArg Path.mk List.dropLast_concat
  have hlast : f.path.last = f.name := List.getLastD_concat
  rw [matching, locate?_eq_childAt?, hparent, hlast]
  cases g.childAt? v f.view.segments <;> rfl

/-- The literals listed under a functor are those that are kept with it. -/
theorem Filed.mem_matching_iff (hfiled : g.Filed v) {negated : Bool} {f : Symbol} {l : Literal} :
    l ∈ g.matching v negated f.path ↔ g.Stores v l ∧ l.negated = negated ∧ l.functor = f := by
  rw [matching_path, List.mem_map]
  constructor
  · rintro ⟨kept, hkept, rfl⟩
    cases hway : g.childAt? v f.view.segments with
    | none =>
        rw [hway] at hkept
        cases hkept
    | some target =>
        rw [hway] at hkept
        obtain ⟨hfunctor, hnegated⟩ := hfiled hway kept hkept
        refine ⟨⟨_, target, _, hway, kept, hkept, rfl⟩, hnegated, ?_⟩
        rw [Literal.under, hfunctor]
        exact congrArg (Symbol.mk · f.name) (congrArg Path.mk (List.append_nil f.view.segments))
  · rintro ⟨⟨way, target, bucket, hway, kept, hkept, rfl⟩, hnegated, hf⟩
    obtain ⟨hfunctor, hbucket⟩ := hfiled hway kept hkept
    have hsymbol : f = ⟨⟨way⟩, bucket.name⟩ := by
      rw [← hf, Literal.under, hfunctor]
      exact congrArg (Symbol.mk · bucket.name) (congrArg Path.mk (List.append_nil way))
    subst hsymbol
    refine ⟨kept, ?_, rfl⟩
    have hplace : (⟨negated, bucket.name⟩ : Bucket) = bucket := by
      rw [← hnegated]
      exact congrArg (Bucket.mk · bucket.name) hbucket
    rw [hway, hplace]
    exact hkept

/-- Changes with normal functors keep every literal under its name. -/
theorem Represents.filed {heap : Heap} {s : BeliefSet heap} (h : g.Represents s) :
    g.Filed root := by
  intro way target bucket hway l hl
  rw [← heldAt_of_childAt? hway, h.held, List.mem_map] at hl
  obtain ⟨m, hm, rfl⟩ := hl
  obtain ⟨hmem, hplace⟩ := List.mem_filter.1 hm
  obtain ⟨-, rfl⟩ := of_decide_eq_true hplace
  have hnormal := h.normal m hmem
  rw [Literal.bucketOf_inView hnormal, Literal.inView_of_normal hnormal]
  exact ⟨rfl, rfl⟩

/-- The literals below the root are those of the set. -/
theorem Represents.stores_iff {heap : Heap} {s : BeliefSet heap} (h : g.Represents s)
    (l : Literal) : g.Stores root l ↔ l ∈ s.literals := by
  have hmatching : l ∈ g.matching root l.negated l.functor.path ↔
      g.Stores root l ∧ l.negated = l.negated ∧ l.functor = l.functor :=
    Filed.mem_matching_iff h.filed
  rw [h.matching_eq_filter, List.mem_filter] at hmatching
  simpa using hmatching.symm

end BeliefGraph

end Deliberation
