import Deliberation.Proofs.Mirror
import Deliberation.Term.Context
import Mathlib.Data.List.Forall2

/-!
# Replacing values

Values that variables are bound to, in their own cells or in slots, are replaced by
other values.  The ways from a variable to its value stay the same, so that reading
a variable gives a value and the one in its place, or the same error twice.  What
literals hold is left open, for no variable is read through a literal.
-/

namespace Deliberation

/-! ## Optional values side by side -/

namespace Related

variable {α β γ δ : Type} {R : α → β → Prop} {S : γ → δ → Prop} {x : Option α} {y : Option β}

theorem getD {a : α} {b : β} (hxy : Option.Rel R x y) (hab : R a b) : R (x.getD a) (y.getD b) := by
  cases hxy with
  | some h => exact h
  | none => exact hab

theorem map {f : α → γ} {g : β → δ} (hxy : Option.Rel R x y) (hfg : ∀ a b, R a b → S (f a) (g b)) :
    Option.Rel S (x.map f) (y.map g) := by
  cases hxy with
  | some h => exact .some (hfg _ _ h)
  | none => exact .none

theorem bind {f : α → Option γ} {g : β → Option δ} (hxy : Option.Rel R x y)
    (hfg : ∀ a b, R a b → Option.Rel S (f a) (g b)) : Option.Rel S (x.bind f) (y.bind g) := by
  cases hxy with
  | some h => exact hfg _ _ h
  | none => exact .none

/-- The first of related things that pass related tests. -/
theorem find? {xs : List α} {ys : List β} {p : α → Bool} {q : β → Bool}
    (hxs : List.Forall₂ R xs ys) (hpq : ∀ a b, R a b → p a = q b) :
    Option.Rel R (xs.find? p) (ys.find? q) := by
  induction hxs with
  | nil => exact .none
  | cons hab _ ih =>
      rw [List.find?_cons, List.find?_cons, hpq _ _ hab]
      split
      · exact .some hab
      · exact ih

end Related

/-! ## Terms with other values -/

variable {R : Value → Value → Prop}

mutual

/-- Terms that are the same but for related values and for what is in literals. -/
inductive Term.Revalued (R : Value → Value → Prop) : Term → Term → Prop
  | raw {v w : Value} (h : R v w) : Term.Revalued R (.raw v) (.raw w)
  | var {x y : Variable} (h : Variable.Revalued R x y) : Term.Revalued R (.var x) (.var y)
  | lit (l m : Literal) : Term.Revalued R (.lit l) (.lit m)

/-- Variables with one name and related bindings. -/
inductive Variable.Revalued (R : Value → Value → Prop) : Variable → Variable → Prop
  | intro (name : Path) {cell cell' : Cell} (h : Cell.Revalued R cell cell') :
      Variable.Revalued R ⟨name, cell⟩ ⟨name, cell'⟩

/-- Cells of one kind with related bindings, or with one slot. -/
inductive Cell.Revalued (R : Value → Value → Prop) : Cell → Cell → Prop
  | free : Cell.Revalued R (.free none) (.free none)
  | freeBound {t u : Term} (h : Term.Revalued R t u) :
      Cell.Revalued R (.free (some t)) (.free (some u))
  | constant {t u : Term} (h : Term.Revalued R t u) : Cell.Revalued R (.constant t) (.constant u)
  | mutex (slot : SlotId) : Cell.Revalued R (.mutex slot) (.mutex slot)
  | relocate (target : Path) : Cell.Revalued R (.relocate target none) (.relocate target none)
  | relocateBound (target : Path) {t u : Term} (h : Term.Revalued R t u) :
      Cell.Revalued R (.relocate target (some t)) (.relocate target (some u))

end

/-- Stores with the same boxes and related terms in their slots. -/
structure Store.Revalued (R : Value → Value → Prop) (s s' : Store) : Prop where
  heap_eq : s'.heap = s.heap
  size_eq : s'.slots.size = s.slots.size
  slot : ∀ i, Option.Rel (Term.Revalued R) (s.readSlot i) (s'.readSlot i)

/-- Contexts with related variables, in the same order. -/
def Context.Revalued (R : Value → Value → Prop) (c c' : Context) : Prop :=
  List.Forall₂ (Variable.Revalued R) c.vars c'.vars

/-! ## Resolving -/

mutual

theorem Term.Revalued.resolveWith {slot slot' : SlotId → Option Term}
    (hslot : ∀ i, Option.Rel (Term.Revalued R) (slot i) (slot' i)) :
    ∀ {t u : Term}, t.Revalued R u → (t.resolveWith slot).Revalued R (u.resolveWith slot')
  | .raw _, _, .raw h => .raw h
  | .lit l, _, .lit _ m => .lit l m
  | .var ⟨_, _⟩, _, .var (.intro name h) =>
      Related.getD (Cell.Revalued.resolveWith hslot h) (.var (.intro name h))

theorem Cell.Revalued.resolveWith {slot slot' : SlotId → Option Term}
    (hslot : ∀ i, Option.Rel (Term.Revalued R) (slot i) (slot' i)) :
    ∀ {cell cell' : Cell}, cell.Revalued R cell' →
      Option.Rel (Term.Revalued R) (cell.resolveWith slot) (cell'.resolveWith slot')
  | .free none, _, .free => .none
  | .free (some _), _, .freeBound h => .some (h.resolveWith hslot)
  | .constant _, _, .constant h => .some (h.resolveWith hslot)
  | .mutex i, _, .mutex _ => hslot i
  | .relocate _ none, _, .relocate _ => .none
  | .relocate _ (some _), _, .relocateBound _ h => .some (h.resolveWith hslot)

end

section Reading

variable {s s' : Store} {c c' : Context}

theorem Term.Revalued.resolveTo (hs : s.Revalued R s') (n : Nat) {t u : Term}
    (htu : t.Revalued R u) : (t.resolveTo s n).Revalued R (u.resolveTo s' n) := by
  induction n generalizing t u with
  | zero => exact htu.resolveWith fun _ => .none
  | succ n ih => exact htu.resolveWith fun i => Related.map (hs.slot i) fun _ _ => ih

/-- Related terms stand for related values, or the same error is met. -/
theorem Term.Revalued.rawValue (hs : s.Revalued R s') {t u : Term} (htu : t.Revalued R u) :
    Both id R (t.rawValue s) (u.rawValue s') := by
  have hresolve := htu.resolveTo hs s.slots.size
  unfold Term.rawValue Term.resolve
  rw [hs.size_eq]
  generalize t.resolveTo s s.slots.size = t at hresolve
  generalize u.resolveTo s' s.slots.size = u at hresolve
  cases hresolve with
  | raw h => exact .ok h
  | var h =>
      obtain ⟨name, -⟩ := h
      exact .error rfl
  | lit l m => exact .error rfl

theorem Variable.Revalued.value? (hs : s.Revalued R s') {x y : Variable} (hxy : x.Revalued R y) :
    Option.Rel (Term.Revalued R) (x.value? s) (y.value? s') := by
  obtain ⟨name, hcell⟩ := hxy
  cases hcell with
  | free => exact .none
  | freeBound h => exact .some h
  | constant h => exact .some h
  | mutex slot => exact hs.slot slot
  | relocate target => exact .none
  | relocateBound target h => exact .some h

namespace Context.Revalued

theorem get? (hc : c.Revalued R c') (name : Path) :
    Option.Rel (Variable.Revalued R) (c.get? name) (c'.get? name) := by
  refine Related.find? hc fun x y hxy => ?_
  obtain ⟨name, -⟩ := hxy
  rfl

/-- A name has related terms in related contexts, or in neither. -/
theorem value (hs : s.Revalued R s') (hc : c.Revalued R c') (name : Path) :
    Both id (Term.Revalued R) (c.value s name) (c'.value s' name) := by
  have hvalue : Option.Rel (Term.Revalued R) (c.value? s name) (c'.value? s' name) :=
    Related.bind (hc.get? name) fun x y hxy => hxy.value? hs
  unfold Context.value
  generalize c.value? s name = x at hvalue
  generalize c'.value? s' name = y at hvalue
  cases hvalue with
  | some h => exact .ok h
  | none => exact .error rfl

end Context.Revalued

end Reading

end Deliberation
