import Deliberation.Term.Identity
import Deliberation.Term.Store

/-!
# Triggers

A trigger is an event: a belief or a goal that is added or deleted.  Plans are
filed by the kind and the functor of the event that they answer.
-/

namespace Deliberation

inductive TriggerKind where
  | addBelief
  | deleteBelief
  | addGoal
  | deleteGoal
deriving DecidableEq

namespace TriggerKind

def isGoal : TriggerKind → Bool
  | addBelief => false
  | deleteBelief => false
  | addGoal => true
  | deleteGoal => true

/-- The sign before the literal. -/
def sign : TriggerKind → String
  | addBelief => "+"
  | deleteBelief => "-"
  | addGoal => "+!"
  | deleteGoal => "-!"

/-- The place of a kind among the kinds. -/
def index : TriggerKind → Nat
  | addBelief => 0
  | deleteBelief => 1
  | addGoal => 2
  | deleteGoal => 3

theorem index_injective {a b : TriggerKind} (h : a.index = b.index) : a = b := by
  cases a <;> cases b <;> simp_all [index]

end TriggerKind

/-- Where the plans for an event are filed. -/
structure TriggerKey where
  kind : TriggerKind
  functor : Path
deriving DecidableEq

/-- Kinds come first, then functors decide. -/
instance : Ord TriggerKey where
  compare a b :=
    match compare a.kind.index b.kind.index with
    | .eq => compare a.functor b.functor
    | other => other

instance : Std.LawfulEqOrd TriggerKey where
  compare_self {a} := by
    change (match compare a.kind.index a.kind.index with
      | .eq => compare a.functor a.functor
      | other => other) = Ordering.eq
    rw [Std.compare_eq_iff_eq.2 rfl]
    exact Std.compare_eq_iff_eq.2 rfl
  eq_of_compare {a b} h := by
    change (match compare a.kind.index b.kind.index with
      | .eq => compare a.functor b.functor
      | other => other) = Ordering.eq at h
    cases hkind : compare a.kind.index b.kind.index with
    | lt => simp [hkind] at h
    | gt => simp [hkind] at h
    | eq =>
        rw [hkind] at h
        have hfunctor : a.functor = b.functor := Std.compare_eq_iff_eq.1 h
        have hkinds : a.kind = b.kind :=
          TriggerKind.index_injective (Std.compare_eq_iff_eq.1 hkind)
        obtain ⟨akind, afunctor⟩ := a
        obtain ⟨bkind, bfunctor⟩ := b
        rw [TriggerKey.mk.injEq]
        exact ⟨hkinds, hfunctor⟩

/-- A belief or a goal that is added or deleted. -/
structure Trigger where
  kind : TriggerKind
  literal : Literal

namespace Trigger

def isGoal (t : Trigger) : Bool := t.kind.isGoal

def key (t : Trigger) : TriggerKey := ⟨t.kind, t.literal.functor.path⟩

/-- Whether two triggers are the same event; box contents and annotations do not count. -/
def same (t u : Trigger) : Bool :=
  t.kind = u.kind && t.literal.identity = u.literal.identity

/-- The text of a trigger. -/
def render (s : Store) (t : Trigger) : String :=
  t.kind.sign ++ t.literal.render s

end Trigger

end Deliberation
