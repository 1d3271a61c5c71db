import Deliberation.Proofs.Term.Equality
import Deliberation.Proofs.Term.Variables
import Deliberation.Proofs.Value.Unboxing

/-!
# Equality and keys

A term on its own is known by its key, and equal terms must have one key.  Three
definitions meet here: equality of values opens the boxes on both sides, the key
of a raw value opens them too, and the identity key of a literal takes a box by
its place.  So two literals whose arguments are equal may still differ in where
their boxes stand, and that is all they may differ in.
-/

namespace Deliberation

/-! ## Where the boxes stand -/

/-- Whether a way of item numbers leads through lists to a box. -/
def Datum.boxAt {β : Type} : List Nat → Datum β → Bool
  | [], .box _ => true
  | index :: place, .list items => items[index]?.any (boxAt place)
  | _, _ => false

/-- Whether a way of argument and item numbers leads through literals and lists to a box. -/
def Term.boxAt : List Nat → Term → Bool
  | place, .raw v => v.boxAt place
  | index :: place, .lit l => l.arguments[index]?.any (Term.boxAt place)
  | _, _ => false

/-- Whether a box stands at a place in the arguments of a literal. -/
def Literal.boxAt (place : List Nat) (l : Literal) : Bool :=
  (Term.lit l).boxAt place

@[simp] theorem Term.boxAt_raw (place : List Nat) (v : Value) :
    (Term.raw v).boxAt place = v.boxAt place := by
  cases place <;> rfl

theorem Datum.boxAt_outline {β : Type} (place : List Nat) (v : Datum β) :
    v.outline.boxAt place = v.boxAt place := by
  induction place generalizing v with
  | nil => cases v <;> rfl
  | cons index place ih =>
      cases v with
      | list items =>
          simp only [outline, bind, boxAt, bindAll_eq_map, List.getElem?_map, Option.any_map]
          exact congrArg (items[index]?.any ·) (funext ih)
      | _ => rfl

/-- Whether a way of argument and item numbers leads through a key to a box. -/
def IdentityKey.boxAt : List Nat → IdentityKey → Bool
  | place, .value outline => outline.boxAt place
  | index :: place, .literal _ _ _ arguments => arguments[index]?.any (IdentityKey.boxAt place)
  | _, _ => false

/-- The identity key shows where the boxes of a term stand. -/
theorem Term.boxAt_identity (place : List Nat) (t : Term) :
    t.identity.boxAt place = t.boxAt place := by
  induction place generalizing t with
  | nil =>
      cases t with
      | raw v => exact v.boxAt_outline []
      | var x => rfl
      | lit l => cases l; rfl
  | cons index place ih =>
      cases t with
      | raw v => exact v.boxAt_outline (index :: place)
      | var x => rfl
      | lit l =>
          obtain ⟨functor, arguments, annotations, negated, marked⟩ := l
          simp only [identity, Literal.identity, IdentityKey.boxAt, boxAt, identityAll_eq,
            List.getElem?_map, Option.any_map]
          exact congrArg (arguments[index]?.any ·) (funext ih)

theorem Literal.boxAt_of_identity {l m : Literal} (h : l.identity = m.identity)
    (place : List Nat) : l.boxAt place = m.boxAt place := by
  rw [boxAt, boxAt, ← Term.boxAt_identity, ← Term.boxAt_identity]
  exact congrArg (IdentityKey.boxAt place) h

/-! ## Equal contents with boxes at the same places -/

mutual

/-- Values that are filled to one tree have one outline when their boxes are at the same places. -/
theorem Datum.outline_of_boxAt {β γ : Type} {f : β → Datum γ} :
    ∀ v w : Datum β, v.bind f = w.bind f → (∀ place, v.boxAt place = w.boxAt place) →
      v.outline = w.outline
  | .box _, w, _, hboxes => by
      cases w with
      | box _ => rfl
      | _ => exact absurd (hboxes []) (by simp [boxAt])
  | .list items, w, hbind, hboxes => by
      cases w with
      | box _ => exact absurd (hboxes []) (by simp [boxAt])
      | list others =>
          exact congrArg Datum.list (outlineAll_of_boxAt items others (Datum.list.inj hbind)
            fun index place => hboxes (index :: place))
      | _ => cases hbind
  | .empty, w, hbind, hboxes => by
      cases w with
      | box _ => exact absurd (hboxes []) (by simp [boxAt])
      | _ => cases hbind <;> rfl
  | .bool _, w, hbind, hboxes => by
      cases w with
      | box _ => exact absurd (hboxes []) (by simp [boxAt])
      | _ => cases hbind <;> rfl
  | .int _, w, hbind, hboxes => by
      cases w with
      | box _ => exact absurd (hboxes []) (by simp [boxAt])
      | _ => cases hbind <;> rfl
  | .float _, w, hbind, hboxes => by
      cases w with
      | box _ => exact absurd (hboxes []) (by simp [boxAt])
      | _ => cases hbind <;> rfl
  | .text _, w, hbind, hboxes => by
      cases w with
      | box _ => exact absurd (hboxes []) (by simp [boxAt])
      | _ => cases hbind <;> rfl

theorem Datum.outlineAll_of_boxAt {β γ : Type} {f : β → Datum γ} :
    ∀ items others : List (Datum β), bindAll f items = bindAll f others →
      (∀ (index : Nat) place,
        items[index]?.any (boxAt place) = others[index]?.any (boxAt place)) →
      bindAll (fun _ => Datum.box ()) items = bindAll (fun _ => .box ()) others
  | [], [], _, _ => rfl
  | [], _ :: _, hbind, _ => by cases hbind
  | _ :: _, [], hbind, _ => by cases hbind
  | item :: rest, other :: others, hbind, hboxes => by
      obtain ⟨hitem, hrest⟩ := List.cons.inj hbind
      exact congrArg₂ List.cons (outline_of_boxAt item other hitem fun place => hboxes 0 place)
        (outlineAll_of_boxAt rest others hrest fun index place => hboxes (index + 1) place)

end

section Acyclic

variable {heap : Heap}

/-- Equal terms with boxes at the same places have one identity key. -/
theorem Term.identity_of_boxAt (hacyclic : heap.Acyclic) {t u : Term}
    (hequal : t.equal heap u = true) (hboxes : ∀ place, t.boxAt place = u.boxAt place) :
    t.identity = u.identity := by
  cases t with
  | raw v =>
      cases u with
      | raw w =>
          obtain ⟨ranking⟩ := hacyclic.ranking
          have hunbox := (hacyclic.equal_iff v w).1 hequal
          rw [ranking.unbox_eq_bind v, ranking.unbox_eq_bind w] at hunbox
          exact congrArg IdentityKey.value
            (Datum.outline_of_boxAt v w hunbox fun place => by simpa using hboxes place)
      | var y => cases hequal
      | lit m => cases hequal
  | var x =>
      cases u with
      | raw w => cases hequal
      | var y => exact congrArg IdentityKey.var (of_decide_eq_true hequal)
      | lit m => cases hequal
  | lit l =>
      cases u with
      | raw w => cases hequal
      | var y => cases hequal
      | lit m => exact Literal.identity_of_equal hequal

theorem Term.identityAll_of_boxAt (hacyclic : heap.Acyclic) {ts us : List Term}
    (hequal : List.Forall₂ (fun t u => t.equal heap u = true) ts us)
    (hboxes : ∀ (index : Nat) place,
      ts[index]?.any (Term.boxAt place) = us[index]?.any (Term.boxAt place)) :
    Term.identityAll ts = Term.identityAll us := by
  induction hequal with
  | nil => rfl
  | cons hfirst hrest ih =>
      exact congrArg₂ List.cons
        (Term.identity_of_boxAt hacyclic hfirst fun place => hboxes 0 place)
        (ih fun index place => hboxes (index + 1) place)

/-- What two equal literals share: functor and flags, equal arguments, and the places of boxes. -/
theorem Literal.equal_iff_boxAt (hacyclic : heap.Acyclic) (l m : Literal) :
    l.equal heap m = true ↔
      l.functor.path = m.functor.path ∧ l.negated = m.negated ∧ l.marked = m.marked ∧
        List.Forall₂ (fun t u => t.equal heap u = true) l.arguments m.arguments ∧
        ∀ place, l.boxAt place = m.boxAt place := by
  constructor
  · intro hequal
    obtain ⟨⟨hfunctor, hnegated, hmarked, -⟩, harguments⟩ := (equal_iff heap l m).1 hequal
    exact ⟨Symbol.path_inj.2 hfunctor, hnegated, hmarked,
      (Term.equalAll_iff_forall₂ heap _ _).1 harguments,
      boxAt_of_identity (identity_of_equal hequal)⟩
  · rintro ⟨hfunctor, hnegated, hmarked, harguments, hboxes⟩
    refine (equal_iff heap l m).2 ⟨⟨Symbol.path_inj.1 hfunctor, hnegated, hmarked, ?_⟩,
      (Term.equalAll_iff_forall₂ heap _ _).2 harguments⟩
    exact Term.identityAll_of_boxAt hacyclic harguments fun index place =>
      hboxes (index :: place)

theorem Heap.Acyclic.equal_iff_key (hacyclic : heap.Acyclic) (v w : Value) :
    heap.equal v w = true ↔ (Term.raw v).key heap = (Term.raw w).key heap := by
  rw [hacyclic.equal_iff, Term.key, Term.key, TermKey.value.injEq]

theorem Term.key_of_equal (hacyclic : heap.Acyclic) {t u : Term}
    (hequal : t.equal heap u = true) : t.key heap = u.key heap := by
  cases t with
  | raw v =>
      cases u with
      | raw w => exact (hacyclic.equal_iff_key v w).1 hequal
      | var y => cases hequal
      | lit m => cases hequal
  | var x =>
      cases u with
      | raw w => cases hequal
      | var y => exact congrArg TermKey.var (of_decide_eq_true hequal)
      | lit m => cases hequal
  | lit l =>
      cases u with
      | raw w => cases hequal
      | var y => cases hequal
      | lit m => exact congrArg TermKey.literal (Literal.identity_of_equal hequal)

/-! ## A lawful pair -/

/-- A relation that is equality of what a function gives is an equivalence. -/
theorem equivalence_of_iff {α β : Type} {r : α → α → Prop} (f : α → β)
    (h : ∀ x y, r x y ↔ f x = f y) : Equivalence r := by
  have hr : r = Function.onFun Eq f := funext₂ fun x y => propext (h x y)
  rw [hr]
  exact eq_equivalence.comap f

/--
Equality is an equivalence that keys respect.  Values are equal when all boxes
removed leave one tree, and then only; literals are equal when they agree in
functor and flags, their arguments are equal one by one, and their boxes stand
at the same places.
-/
theorem Heap.Acyclic.equality_lawful (hacyclic : heap.Acyclic) :
    (∀ v : Value, heap.unbox v = v.bind fun b => heap.unbox (heap.read b)) ∧
      (∀ v w : Value, heap.equal v w = true ↔ heap.unbox v = heap.unbox w) ∧
      (∀ v w : Value,
        heap.equal v w = true ↔ (Term.raw v).key heap = (Term.raw w).key heap) ∧
      Equivalence (fun v w : Value => heap.equal v w = true) ∧
      Equivalence (fun t u : Term => t.equal heap u = true) ∧
      Equivalence (fun l m : Literal => l.equal heap m = true) ∧
      (∀ t u : Term, t.equal heap u = true → t.key heap = u.key heap) ∧
      ∀ l m : Literal, l.equal heap m = true ↔
        l.functor.path = m.functor.path ∧ l.negated = m.negated ∧ l.marked = m.marked ∧
          List.Forall₂ (fun t u => t.equal heap u = true) l.arguments m.arguments ∧
          ∀ place, l.boxAt place = m.boxAt place := by
  obtain ⟨ranking⟩ := hacyclic.ranking
  refine ⟨ranking.unbox_eq_bind, hacyclic.equal_iff, hacyclic.equal_iff_key, ?values, ?terms,
    ?literals, fun t u => Term.key_of_equal hacyclic, Literal.equal_iff_boxAt hacyclic⟩
  case values => exact equivalence_of_iff heap.unbox hacyclic.equal_iff
  case terms => exact equivalence_of_iff (Term.content heap) (Term.equal_iff_content heap)
  case literals =>
    exact equivalence_of_iff (Literal.content heap) (Literal.equal_iff_content heap)

end Acyclic

/--
One box holds a list around a further box, the other a plain list.  The literals
with the two boxes are equal; the literal with the list itself differs from them
in its key only.
-/
theorem Heap.Acyclic.equality_lawful_nested :
    let heap : Heap := ⟨#[.int 1, .list [.box 0], .list [.int 1]]⟩
    let f (v : Value) : Literal := ⟨⟨.empty, "f"⟩, [.raw v, .raw (.int 2)], [], false, false⟩
    heap.Acyclic ∧
      (Term.raw (.box 1)).key heap = (Term.raw (.list [.int 1])).key heap ∧
      (f (.box 1)).equal heap (f (.box 2)) = true ∧
      (f (.box 1)).equal heap (f (.list [.int 1])) = false := by
  intro heap f
  have hacyclic : heap.Acyclic := by
    refine ⟨id, ?_⟩
    intro b c hc
    match b with
    | 0 => cases hc
    | 1 =>
        obtain rfl : c = 0 := List.mem_singleton.1 hc
        exact Nat.zero_lt_one
    | 2 => cases hc
    | b + 3 => cases hc
  obtain ⟨-, -, hkey, -, hterms, -, -, hliterals⟩ := hacyclic.equality_lawful
  refine ⟨hacyclic, (hkey _ _).1 (by decide), (hliterals _ _).2 ?equal, ?differ⟩
  case equal =>
    exact ⟨rfl, rfl, rfl, .cons (by decide) (.cons (hterms.refl _) .nil),
      Literal.boxAt_of_identity rfl⟩
  case differ =>
    refine Bool.eq_false_iff.2 fun hequal => ?_
    obtain ⟨-, -, -, -, hboxes⟩ := (hliterals _ _).1 hequal
    exact absurd (hboxes [0]) (by decide)

end Deliberation
