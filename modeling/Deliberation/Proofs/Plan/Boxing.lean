import Deliberation.Plan.Expression
import Deliberation.Proofs.Term.Revaluing
import Deliberation.Proofs.Value.Opening

/-!
# Boxes in expressions

Constants and the values of variables are opened before an operator gets to see
them, and what an operator gives is never a box.  So an expression has the same
value when constants and bound values are put into boxes.  Boxes inside a list are
not opened, but no operator looks into a list except to compare it: with boxes at
any depth the value is still an equal one.
-/

namespace Deliberation

/-- Whether a datum is a truth value, a number or a text. -/
def Datum.isScalar {β : Type} : Datum β → Bool
  | .bool _ => true
  | .int _ => true
  | .float _ => true
  | .text _ => true
  | _ => false

namespace Expression

/-! ## What operators give -/

/-- A computation gives a value with a property if it gives any. -/
def Gives (P : Value → Prop) (x : Except ExecutionError Value) : Prop := ∀ v, x = .ok v → P v

/-- A computation gives a scalar if it gives anything. -/
abbrev GivesScalar : Except ExecutionError Value → Prop := Gives fun v => v.isScalar = true

namespace Gives

variable {α : Type} {P : Value → Prop}

theorem ok {v : Value} (hv : P v) : Gives P (.ok v) := by
  rintro _ ⟨⟩
  exact hv

theorem error (e : ExecutionError) : Gives P (.error e) := nofun

theorem bind {x : Except ExecutionError α} {f : α → Except ExecutionError Value}
    (hf : ∀ a, Gives P (f a)) : Gives P (x >>= f) := by
  cases x with
  | ok a => exact hf a
  | error e => exact error e

theorem ite {p : Prop} [Decidable p] {x y : Except ExecutionError Value} (hx : Gives P x)
    (hy : Gives P y) : Gives P (if p then x else y) := by
  split
  · exact hx
  · exact hy

end Gives

theorem integer_givesScalar (op : BinaryOp) (a b : Int64) : GivesScalar (integer op a b) := by
  cases op with
  | add => exact .ok rfl
  | subtract => exact .ok rfl
  | multiply => exact .ok rfl
  | divide => exact .ite (.error _) (.ok rfl)
  | modulo => exact .ite (.error _) (.ok rfl)
  | _ => exact .ite (.ok rfl) (.ok rfl)

theorem numeric_givesScalar (op : BinaryOp) (a b : Binary64) : GivesScalar (numeric op a b) := by
  cases op with
  | divide => exact .ite (.error _) (.ok rfl)
  | modulo => exact .ite (.error _) (.ok rfl)
  | _ => exact .ok rfl

theorem arithmetic_givesScalar (h : Heap) (op : BinaryOp) (v w : Value) :
    GivesScalar (arithmetic h op v w) := by
  unfold arithmetic
  split
  · exact .ok rfl
  · exact integer_givesScalar op _ _
  · exact .bind fun a => .bind fun b => numeric_givesScalar op a b

theorem orderTest_givesScalar (h : Heap) (test : Ordering → Bool) (v w : Value) :
    GivesScalar (orderTest h test v w) :=
  .bind fun _ => .ok rfl

theorem connective_givesScalar (h : Heap) (short : Bool → Bool) (f : Bool → Bool → Bool)
    (v w : Value) : GivesScalar (connective h short f v w) :=
  .bind fun _ => .ite (.ok rfl) (.bind fun _ => .ok rfl)

theorem applyUnary_givesScalar (h : Heap) (op : UnaryOp) (v : Value) :
    GivesScalar (applyUnary h op v) := by
  unfold applyUnary
  split
  · exact .bind fun _ => .ok rfl
  · exact .ok rfl
  · exact .bind fun _ => .ok rfl

theorem applyBinary_givesScalar (h : Heap) (op : BinaryOp) (v w : Value) :
    GivesScalar (applyBinary h op v w) := by
  cases op with
  | equal => exact .ok rfl
  | notEqual => exact .ok rfl
  | less => exact orderTest_givesScalar h _ v w
  | lessEqual => exact orderTest_givesScalar h _ v w
  | greater => exact orderTest_givesScalar h _ v w
  | greaterEqual => exact orderTest_givesScalar h _ v w
  | and => exact connective_givesScalar h _ _ v w
  | or => exact connective_givesScalar h _ _ v w
  | xor => exact connective_givesScalar h _ _ v w
  | _ => exact arithmetic_givesScalar h _ v w

theorem isScalar_of_decided {op : BinaryOp} {v w : Value} (h : decided op v = some w) :
    w.isScalar = true := by
  unfold decided at h
  split at h <;> cases h <;> rfl

theorem evaluate_gives_no_box (s : Store) (c : Context) (e : Expression) :
    Gives (fun v => ∀ b, v ≠ .box b) (evaluate s c e) := by
  have hscalar : ∀ v : Value, v.isScalar = true → ∀ b, v ≠ .box b := by
    rintro v hv b rfl
    cases hv
  cases e with
  | constant v => exact .ok (s.heap.snapshot_ne_box v)
  | var name => exact .bind fun t => .bind fun v => .ok (s.heap.snapshot_ne_box v)
  | unary op operand =>
      exact .bind fun v r hr => hscalar r (applyUnary_givesScalar s.heap op v r hr)
  | binary op left right =>
      refine .bind fun v => ?_
      split
      · next r hr => exact .ok (hscalar r (isScalar_of_decided hr))
      · exact .bind fun w r hr => hscalar r (applyBinary_givesScalar s.heap op v w r hr)

/-! ## Values that no operator tells apart -/

/-- Related values are alike to every operator, and scalars are related to themselves. -/
structure Indifferent (h : Heap) (S : Value → Value → Prop) : Prop where
  scalar : ∀ v, v.isScalar = true → S v v
  decided_eq : ∀ {v v'}, S v v' → ∀ op, decided op v = decided op v'
  unary_eq : ∀ {v v'}, S v v' → ∀ op, applyUnary h op v = applyUnary h op v'
  binary_eq : ∀ {v v' w w'}, S v v' → S w w' →
    ∀ op, applyBinary h op v w = applyBinary h op v' w'

theorem indifferent_eq (h : Heap) : Indifferent h Eq where
  scalar _ _ := rfl
  decided_eq := by
    rintro v _ rfl op
    rfl
  unary_eq := by
    rintro v _ rfl op
    rfl
  binary_eq := by
    rintro v _ w _ rfl rfl op
    rfl

/-- Expressions with related constants. -/
inductive Revalued (R : Value → Value → Prop) : Expression → Expression → Prop
  | constant {v w : Value} (h : R v w) : Revalued R (.constant v) (.constant w)
  | var (name : Path) : Revalued R (.var name) (.var name)
  | unary (op : UnaryOp) {e e' : Expression} (h : Revalued R e e') :
      Revalued R (.unary op e) (.unary op e')
  | binary (op : BinaryOp) {l l' r r' : Expression} (hleft : Revalued R l l')
      (hright : Revalued R r r') : Revalued R (.binary op l r) (.binary op l' r')

section Evaluation

variable {s s' : Store} {c c' : Context} {e e' : Expression} {R S : Value → Value → Prop}

theorem Indifferent.both (hS : Indifferent s.heap S) {x : Except ExecutionError Value}
    (hx : GivesScalar x) : Both id S x x := by
  cases x with
  | ok v => exact .ok (hS.scalar v (hx v rfl))
  | error e => exact .error rfl

/-- Where related values open to values that are alike, so do expressions with related values. -/
theorem Indifferent.evaluate (hS : Indifferent s.heap S)
    (hopen : ∀ v w, R v w → S (s.heap.snapshot v) (s.heap.snapshot w)) (hs : s.Revalued R s')
    (hc : c.Revalued R c') (he : e.Revalued R e') :
    Both id S (Expression.evaluate s c e) (Expression.evaluate s' c' e') := by
  induction he with
  | constant h =>
      rw [Expression.evaluate, Expression.evaluate, hs.heap_eq]
      exact .ok (hopen _ _ h)
  | var name =>
      rw [Expression.evaluate, Expression.evaluate, hs.heap_eq]
      have hwrap : ∀ a b : TermError, id a = id b →
          id (ExecutionError.term a) = id (ExecutionError.term b) := fun _ _ => congrArg _
      refine ((hc.value hs name).mapError hwrap).bind fun t u htu => ?_
      refine ((htu.rawValue hs).mapError hwrap).bind fun v w hvw => ?_
      exact .ok (hopen v w hvw)
  | unary op _ ih =>
      refine ih.bind fun v v' hv => ?_
      rw [hs.heap_eq, hS.unary_eq hv]
      exact hS.both (applyUnary_givesScalar s.heap op v')
  | binary op _ _ ihLeft ihRight =>
      refine ihLeft.bind fun v v' hv => ?_
      -- the left sides decide alone both or neither, and then with one result
      rw [hS.decided_eq hv]
      split
      · next r hr => exact .ok (hS.scalar r (isScalar_of_decided hr))
      · refine ihRight.bind fun w w' hw => ?_
        rw [hs.heap_eq, hS.binary_eq hv hw]
        exact hS.both (applyBinary_givesScalar s.heap op v' w')

end Evaluation

end Expression

/-! ## Equal lists -/

namespace Heap

open Expression

/-- Two values have the same content, whatever boxes they are in. -/
def SameContent (h : Heap) (v w : Value) : Prop := h.equal v w = true

instance (h : Heap) (v w : Value) : Decidable (h.SameContent v w) :=
  inferInstanceAs (Decidable (h.equal v w = true))

/-- Opened values that are the same or are lists of the same content. -/
inductive SameOpened (h : Heap) : Value → Value → Prop
  | refl (v : Value) : SameOpened h v v
  | lists {xs ys : List Value} (hcontent : h.SameContent (.list xs) (.list ys)) :
      SameOpened h (.list xs) (.list ys)

variable {h : Heap} {v v' w w' : Value}

theorem snapshot_list (h : Heap) (xs : List Value) : h.snapshot (.list xs) = .list xs :=
  h.snapshot_of_not_box (by simp)

theorem asNumber_list (h : Heap) (xs : List Value) :
    h.asNumber (.list xs) = .error (.typeMismatch "number" "list") := by
  rw [asNumber, snapshot_list]
  rfl

theorem asBool_list (h : Heap) (xs : List Value) :
    h.asBool (.list xs) = .error (.typeMismatch "bool" "list") := by
  rw [asBool, snapshot_list]
  rfl

namespace SameOpened

theorem asNumber_eq (hv : h.SameOpened v v') : h.asNumber v = h.asNumber v' := by
  cases hv with
  | refl => rfl
  | lists => rw [asNumber_list, asNumber_list]

theorem asBool_eq (hv : h.SameOpened v v') : h.asBool v = h.asBool v' := by
  cases hv with
  | refl => rfl
  | lists => rw [asBool_list, asBool_list]

/-- A list is neither an integer nor a text, so it is asked for a number, in vain. -/
theorem order_eq (hv : h.SameOpened v v') (hw : h.SameOpened w w') :
    order h v w = order h v' w' := by
  have hleft : order h v w = order h v' w := by
    cases hv with
    | refl => rfl
    | lists => simp only [order, asNumber_list]
  rw [hleft]
  cases hw with
  | refl => rfl
  | lists => cases v' <;> simp only [order, asNumber_list]

theorem arithmetic_eq (hv : h.SameOpened v v') (hw : h.SameOpened w w') (op : BinaryOp) :
    arithmetic h op v w = arithmetic h op v' w' := by
  have hleft : arithmetic h op v w = arithmetic h op v' w := by
    cases hv with
    | refl => rfl
    | lists => simp [arithmetic, asNumber_list]
  rw [hleft]
  cases hw with
  | refl => rfl
  | lists => cases v' <;> simp [arithmetic, asNumber_list]

theorem unbox_eq (hacyclic : h.Acyclic) (hv : h.SameOpened v v') : h.unbox v = h.unbox v' := by
  cases hv with
  | refl => rfl
  | lists hcontent => exact (hacyclic.equal_iff _ _).1 hcontent

theorem equal_eq (hacyclic : h.Acyclic) (hv : h.SameOpened v v') (hw : h.SameOpened w w') :
    Expression.equal h v w = Expression.equal h v' w' := by
  have hcontent : h.equal v w = h.equal v' w' := by
    rw [Bool.eq_iff_iff, hacyclic.equal_iff, hacyclic.equal_iff, hv.unbox_eq hacyclic,
      hw.unbox_eq hacyclic]
  rw [Expression.equal, Expression.equal, hv.asNumber_eq, hw.asNumber_eq, hcontent]

theorem indifferent (hacyclic : h.Acyclic) : Indifferent h h.SameOpened where
  scalar v _ := .refl v
  decided_eq := by
    rintro v v' hv op
    cases hv with
    | refl => rfl
    | lists => cases op <;> rfl
  unary_eq := by
    rintro v v' hv op
    cases hv with
    | refl => rfl
    | lists => cases op <;> simp only [applyUnary, asNumber_list, asBool_list]
  binary_eq := by
    rintro v v' w w' hv hw op
    cases op <;> simp only [applyBinary, orderTest, connective, hv.order_eq hw, hv.asBool_eq,
      hw.asBool_eq, hv.equal_eq hacyclic hw, hv.arithmetic_eq hw]

end SameOpened

/-- Values with the same content open to the same value, or to lists of the same content. -/
theorem Acyclic.sameOpened (hacyclic : h.Acyclic) (hcontent : h.SameContent v w) :
    h.SameOpened (h.snapshot v) (h.snapshot w) := by
  obtain ⟨ranking⟩ := hacyclic.ranking
  have hunbox : h.unbox (h.snapshot v) = h.unbox (h.snapshot w) := by
    rw [ranking.unbox_snapshot, ranking.unbox_snapshot]
    exact (hacyclic.equal_iff v w).1 hcontent
  have hopened : h.SameContent (h.snapshot v) (h.snapshot w) := (hacyclic.equal_iff _ _).2 hunbox
  have hv := h.snapshot_ne_box v
  have hw := h.snapshot_ne_box w
  rw [ranking.unbox_eq_bind, ranking.unbox_eq_bind (h.snapshot w)] at hunbox
  -- neither is a box, and a value that is not a list shows in its tree as it is
  generalize h.snapshot v = x at hunbox hopened hv
  generalize h.snapshot w = y at hunbox hopened hw
  cases x with
  | box b => exact absurd rfl (hv b)
  | list xs =>
      cases y with
      | box b => exact absurd rfl (hw b)
      | list ys => exact .lists hopened
      | _ => cases hunbox
  | _ =>
      cases y with
      | box b => exact absurd rfl (hw b)
      | _ =>
          cases hunbox
          all_goals exact .refl _

end Heap

/--
An expression does not see boxes.  It has the same value or error when constants
and bound values are put into boxes, and into boxes around these, to any depth.  In
a heap without cycles constants and bound values may be replaced by any others with
the same content, in boxes at any depth: then the error is the same, or the value
has the same content.  And the value is never a box.
-/
theorem Expression.evaluate_through_boxes (s s' : Store) (c c' : Context) (e e' : Expression) :
    (s.Revalued s.heap.Wraps s' → c.Revalued s.heap.Wraps c' → e.Revalued s.heap.Wraps e' →
      evaluate s' c' e' = evaluate s c e) ∧
      (s.heap.Acyclic → s.Revalued s.heap.SameContent s' → c.Revalued s.heap.SameContent c' →
        e.Revalued s.heap.SameContent e' →
          Both id s.heap.SameContent (evaluate s c e) (evaluate s' c' e')) ∧
      ∀ v, evaluate s c e = .ok v → ∀ b, v ≠ .box b := by
  refine ⟨fun hs hc he => ?_, fun hacyclic hs hc he => ?_, evaluate_gives_no_box s c e⟩
  · have hsame := (indifferent_eq s.heap).evaluate (fun _ _ hw => hw.snapshot_eq) hs hc he
    exact hsame.eq.symm
  · have hsame := (Heap.SameOpened.indifferent hacyclic).evaluate
      (fun _ _ => hacyclic.sameOpened) hs hc he
    refine hsame.imp fun v w hvw => ?_
    exact (hacyclic.equal_iff v w).2 (hvw.unbox_eq hacyclic)

/-- A division of integers, a left side that decides alone, and a list, with values in boxes, in a
box in a box, in a slot and inside the list. -/
theorem Expression.evaluate_through_boxes_twice :
    let heap : Heap := ⟨#[.int 7, .box 0, .int 2, .bool false, .list [.box 0]]⟩
    let s (v : Value) : Store := ⟨heap, #[some (.raw v)]⟩
    let c (v : Value) : Context := ⟨[⟨⟨["X"]⟩, .free (some (.raw v))⟩, ⟨⟨["Y"]⟩, .mutex 0⟩]⟩
    let quotient : Expression := .binary .divide (.var ⟨["X"]⟩) (.var ⟨["Y"]⟩)
    let guarded (v w : Value) : Expression :=
      .binary .and (.constant v) (.binary .divide (.constant w) (.constant (.int 0)))
    evaluate (s (.box 2)) (c (.box 1)) quotient = .ok (.int 3) ∧
      evaluate (s (.box 2)) (c (.box 1)) (guarded (.box 3) (.box 1)) = .ok (.bool false) ∧
      Both id heap.SameContent (evaluate (s (.int 2)) (c (.int 7)) (.constant (.list [.int 7])))
        (evaluate (s (.box 2)) (c (.box 1)) (.constant (.box 4))) := by
  intro heap s c quotient guarded
  have hacyclic : heap.Acyclic := Heap.acyclic_of_earlier (by decide)
  have hstore : ∀ {R : Value → Value → Prop}, R (.int 2) (.box 2) →
      (s (.int 2)).Revalued R (s (.box 2)) := by
    intro R hslot
    refine ⟨rfl, rfl, fun i => ?_⟩
    match i with
    | 0 => exact .some (.raw hslot)
    | i + 1 => exact .none
  have hcontext : ∀ {R : Value → Value → Prop}, R (.int 7) (.box 1) →
      (c (.int 7)).Revalued R (c (.box 1)) := by
    intro R hcell
    exact .cons (.intro _ (.freeBound (.raw hcell))) (.cons (.intro _ (.mutex 0)) .nil)
  have hseven : heap.Wraps (.int 7) (.box 1) := .box (.box .self)
  have hwrapped := fun e e' => (evaluate_through_boxes (s (.int 2)) (s (.box 2)) (c (.int 7))
    (c (.box 1)) e e').1 (hstore (.box .self)) (hcontext hseven)
  refine ⟨hwrapped quotient quotient (.binary _ (.var _) (.var _)), ?_, ?_⟩
  · exact hwrapped (guarded (.bool false) (.int 7)) _ (.binary _ (.constant (.box .self))
      (.binary _ (.constant hseven) (.constant .self)))
  · refine (evaluate_through_boxes _ _ _ _ _ _).2.1 hacyclic (hstore ?_) (hcontext ?_)
      (.constant ?_)
    all_goals decide

end Deliberation
