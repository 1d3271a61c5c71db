import Deliberation.Matching.Unifier
import Deliberation.Plan.Basic
import Deliberation.Proofs.Effect

/-!
# Operations that leave the boxes alone

Binding a variable fills a cell or a slot, and a new mutex variable opens a
slot.  No operation on contexts reaches into a box, so that the heap is the same
after making a context, binding variables in it, and unifying with the beliefs.
-/

namespace Deliberation

variable {ε σ α β : Type}

/-- An operation leaves the boxes as they are. -/
def LeavesBoxes (boxes : σ → Heap) (operation : StateM σ α) : Prop :=
  ∀ s, boxes (operation s).2 = boxes s

namespace LeavesBoxes

variable {boxes : σ → Heap}

theorem pure (a : α) : LeavesBoxes boxes (Pure.pure a) := fun _ => rfl

theorem bind {operation : StateM σ α} {next : α → StateM σ β}
    (hfirst : LeavesBoxes boxes operation) (hnext : ∀ a, LeavesBoxes boxes (next a)) :
    LeavesBoxes boxes (operation >>= next) :=
  fun s => (hnext _ _).trans (hfirst s)

/-- The same for operations that may end in an error. -/
theorem bindExcept {operation : ExceptT ε (StateM σ) α} {next : α → ExceptT ε (StateM σ) β}
    (hfirst : LeavesBoxes boxes operation) (hnext : ∀ a, LeavesBoxes boxes (next a)) :
    LeavesBoxes boxes (operation >>= next : ExceptT ε (StateM σ) β) := by
  intro s
  have hs := hfirst s
  rw [bind_apply]
  cases hoperation : operation s with
  | mk result after =>
      rw [hoperation] at hs
      cases result with
      | ok a => exact (hnext a after).trans hs
      | error e => exact hs

theorem pureExcept (a : α) :
    LeavesBoxes boxes (Pure.pure a : ExceptT ε (StateM σ) α) := fun _ => rfl

end LeavesBoxes

/-! ## Variables and contexts -/

theorem Variable.unboundCopy_leavesBoxes (x : Variable) :
    LeavesBoxes Store.heap x.unboundCopy := by
  intro s
  unfold Variable.unboundCopy
  cases x.cell <;> rfl

theorem Variable.set_heap {s s' : Store} {x x' : Variable} {t : Term}
    (h : x.set s t = .ok (s', x')) : s'.heap = s.heap := by
  unfold Variable.set at h
  cases hcell : x.cell <;> simp only [hcell, Except.ok.injEq, Prod.mk.injEq, reduceCtorEq] at h
  all_goals rw [← h.1]
  rfl

namespace Context

theorem ofVariables_leavesBoxes (vars : List Variable) :
    LeavesBoxes Store.heap (ofVariables vars) := by
  unfold ofVariables
  generalize empty = c
  induction vars generalizing c with
  | nil => exact .pure c
  | cons x rest ih =>
      rw [List.foldlM_cons]
      refine LeavesBoxes.bind ?_ ih
      split
      · exact .pure c
      · exact fun s => x.unboundCopy_leavesBoxes s

theorem bindIn_heap {scope after : Scope} {name : Path} {t : Term}
    (h : bindIn scope name t = .ok after) : after.store.heap = scope.store.heap := by
  unfold bindIn at h
  split at h
  · cases h
    rfl
  · split at h
    · next hset =>
        cases h
        exact Variable.set_heap hset
    · cases h

theorem bind_leavesBoxes (name : Path) (t : Term) :
    LeavesBoxes (fun scope => scope.store.heap) (bind name t) := by
  intro scope
  unfold bind
  rw [bind_apply, get_apply]
  cases hbind : bindIn scope name t with
  | ok after => simpa [hbind, set_apply] using bindIn_heap hbind
  | error e => simp [hbind, throw_apply]

theorem bindAll_leavesBoxes (pairs : List (Path × Term)) :
    LeavesBoxes (fun scope => scope.store.heap) (bindAll pairs) := by
  induction pairs with
  | nil => exact .pureExcept ()
  | cons pair rest ih => exact .bindExcept (bind_leavesBoxes _ _) fun _ => ih

theorem propagate_leavesBoxes (vars : List Variable) :
    LeavesBoxes (fun scope => scope.store.heap) (propagate vars) := by
  induction vars with
  | nil => exact .pureExcept 0
  | cons x rest ih =>
      unfold propagate
      split
      · exact .bindExcept (bind_leavesBoxes _ _) fun _ => .bindExcept ih fun _ => .pureExcept _
      · exact ih

end Context

theorem BindingSet.apply_leavesBoxes (b : BindingSet) :
    LeavesBoxes (fun scope => scope.store.heap) b.apply :=
  Context.bindAll_leavesBoxes b.pairs

/-! ## Plans and rules -/

theorem Plan.context_leavesBoxes (p : Plan) : LeavesBoxes Store.heap p.context :=
  .bind (Context.ofVariables_leavesBoxes p.vars) fun _ => .pure _

theorem Rule.context_leavesBoxes (r : Rule) : LeavesBoxes Store.heap r.context :=
  Context.ofVariables_leavesBoxes _

theorem Rule.bindHead_leavesBoxes (name : Path) (t : Term) :
    LeavesBoxes (fun scope => scope.store.heap) (Rule.bindHead name t) := by
  intro scope
  unfold Rule.bindHead
  rw [bind_apply, get_apply]
  cases t with
  | raw v => exact Context.bind_leavesBoxes name _ scope
  | lit l => exact Context.bind_leavesBoxes name _ scope
  | var outer =>
      dsimp only
      split
      · exact Context.bind_leavesBoxes name _ scope
      · rfl

theorem Rule.bindHeads_leavesBoxes (bindings : List Binding) :
    LeavesBoxes (fun scope => scope.store.heap) (Rule.bindHeads bindings) := by
  induction bindings with
  | nil => exact .pureExcept ()
  | cons binding rest ih => exact .bindExcept (Rule.bindHead_leavesBoxes _ _) fun _ => ih

/-! ## Unification -/

namespace Unifier

theorem attempt_leavesBoxes (strategy : Strategy) (c : Context) (guard : Option Guard)
    (b : BindingSet) : LeavesBoxes Store.heap (attempt strategy c guard b) := by
  intro s
  unfold attempt
  have hheap := b.apply_leavesBoxes ⟨s, c⟩
  cases happly : b.apply ⟨s, c⟩ with
  | mk result scope =>
      rw [happly] at hheap
      simp only [bind_apply, get_apply, set_apply, happly]
      cases result with
      | error e => exact hheap
      | ok value =>
          cases guard with
          | none => exact hheap
          | some test =>
              cases hverdict : test scope.store scope.context with
              | error e => simpa [hverdict, throw_apply] using hheap
              | ok verdict => simpa [hverdict, pure_apply] using hheap

theorem firstAccepted_leavesBoxes (strategy : Strategy) (c : Context) (guard : Option Guard)
    (sets : List BindingSet) : LeavesBoxes Store.heap (firstAccepted strategy c guard sets) := by
  induction sets with
  | nil => exact .pureExcept none
  | cons b rest ih =>
      refine .bindExcept (attempt_leavesBoxes strategy c guard b) fun committed => ?_
      cases committed with
      | none => exact ih
      | some c => exact .pureExcept (some c)

theorem firstMatch_leavesBoxes (strategy : Strategy) (c : Context) (guard : Option Guard)
    (index : Nat) (sets : List BindingSet) :
    LeavesBoxes Store.heap
      (Pool.firstMatchFrom (fun _ b => attempt strategy c guard b) index sets :
        Attempt (Option Context)) := by
  induction sets generalizing index with
  | nil => exact .pureExcept none
  | cons b rest ih =>
      refine .bindExcept (attempt_leavesBoxes strategy c guard b) fun committed => ?_
      cases committed with
      | none => exact ih (index + 1)
      | some c => exact .pureExcept (some c)

/-- Unification writes to slots at most. -/
theorem unify_leavesBoxes (u : Unifier) (g : BeliefGraph) (v : ViewId) (query : Literal)
    (c : Context) (guard : Option Guard) (parallel : Bool) :
    LeavesBoxes Store.heap (u.unify g v query c guard parallel) := by
  intro s
  unfold unify
  rw [bind_apply, get_apply]
  obtain ⟨strategy, pool⟩ := u
  cases parallel with
  | false => exact firstAccepted_leavesBoxes strategy c guard _ s
  | true =>
      cases pool with
      | none => exact firstAccepted_leavesBoxes strategy c guard _ s
      | some pool => exact firstMatch_leavesBoxes strategy c guard 0 _ s

end Unifier

end Deliberation
