import Deliberation.Plan.Library
import Deliberation.Proofs.Matching.Cleared
import Deliberation.Proofs.Term.Identity

/-!
# What the key of a plan leaves out

The key of a plan takes literals by identity, which is without annotations and
without the kinds of variables, and boxes by their contents or their places.  The
remainder of a plan is all this: the annotations of its literals, its variables
with their kinds, and what has boxes in it.  Key and remainder together determine
the plan, up to the bindings of template variables.  Goals and rule calls pass
their variables on, so the remainder has these as they are.
-/

namespace Deliberation

variable {α β γ κ ρ : Type}

/-! ## Boxes -/

/-- Something with boxes in it as a whole; of anything else nothing. -/
def ifBoxed (marks : α → List BoxId) (a : α) : Option α :=
  if marks a = [] then none else some a

theorem eq_of_ifBoxed {marks : α → List BoxId} {a b : α} (h : ifBoxed marks a = ifBoxed marks b)
    (hplain : marks a = [] → marks b = [] → a = b) : a = b := by
  unfold ifBoxed at h
  by_cases ha : marks a = []
  · by_cases hb : marks b = []
    · exact hplain ha hb
    · simp [ha, hb] at h
  · by_cases hb : marks b = []
    · simp [ha, hb] at h
    · simpa [ha, hb] using h

namespace ExpressionOf

/-- The marks of the boxes in an expression. -/
def marks : ExpressionOf β → List β
  | .constant value => value.marks
  | .var _ => []
  | .unary _ operand => operand.marks
  | .binary _ left right => left.marks ++ right.marks

theorem bindBoxes_bindBoxes_of_marks (f : β → Datum γ) (g : γ → Datum β) (e : ExpressionOf β)
    (h : e.marks = []) : (e.bindBoxes f).bindBoxes g = e := by
  induction e with
  | constant value => exact congrArg constant (value.bind_bind_of_marks f g h)
  | var name => rfl
  | unary op operand ih => exact congrArg (unary op) (ih h)
  | binary op left right ihLeft ihRight =>
      obtain ⟨hleft, hright⟩ := List.append_eq_nil_iff.1 h
      exact congrArg₂ (binary op) (ihLeft hleft) (ihRight hright)

end ExpressionOf

namespace DirectiveOf

/-- The marks of the boxes in an annotation. -/
def marks : DirectiveOf β → List β
  | .constant _ value => value.marks
  | _ => []

theorem bindBoxes_bindBoxes_of_marks (f : β → Datum γ) (g : γ → Datum β) (d : DirectiveOf β)
    (h : d.marks = []) : (d.bindBoxes f).bindBoxes g = d := by
  cases d with
  | atomic => rfl
  | parallel => rfl
  | constant name value => exact congrArg (constant name) (value.bind_bind_of_marks f g h)

end DirectiveOf

/-! ## Keys with a remainder -/

/--
Where keys and remainders agree, the outcome is the same.  The keys may be taken
at different times.
-/
def Determined (key later : α → κ) (rest : α → ρ) (outcome : α → γ) : Prop :=
  ∀ a b, key a = later b → rest a = rest b → outcome a = outcome b

namespace Determined

variable {key later : α → κ} {rest : α → ρ} {outcome : α → γ}

/-- Without boxes a key that can be undone is enough. -/
theorem ofMarks {marks : α → List BoxId} (undo : κ → α)
    (hkey : ∀ a, marks a = [] → undo (key a) = a)
    (hlater : ∀ a, marks a = [] → undo (later a) = a) :
    Determined key later (ifBoxed marks) id := by
  intro a b hab hrest
  refine eq_of_ifBoxed hrest fun ha hb => ?_
  rw [← hkey a ha, hab, hlater b hb]

theorem option (h : Determined key later rest outcome) :
    Determined (Option.map key) (Option.map later) (Option.map rest) (Option.map outcome) := by
  intro a b hkey hrest
  cases a with
  | none => cases b with
    | none => rfl
    | some b => cases hkey
  | some a => cases b with
    | none => cases hkey
    | some b => exact congrArg some (h a b (Option.some.inj hkey) (Option.some.inj hrest))

theorem list (h : Determined key later rest outcome) :
    Determined (List.map key) (List.map later) (List.map rest) (List.map outcome) := by
  intro as bs hkey hrest
  induction as generalizing bs with
  | nil => cases bs with
    | nil => rfl
    | cons b bs => cases hkey
  | cons a as ih => cases bs with
    | nil => cases hkey
    | cons b bs =>
        obtain ⟨hkey, hkeys⟩ := List.cons.inj hkey
        obtain ⟨hrest, hrests⟩ := List.cons.inj hrest
        exact congrArg₂ List.cons (h a b hkey hrest) (ih bs hkeys hrests)

end Determined

/-! ## Terms and literals -/

/-- What the identity key of a term leaves out. -/
inductive Remainder where
  /-- A value with boxes in it. -/
  | value (boxed : Option Value)
  | var (x : Variable)
  | literal (arguments : List Remainder) (annotations : List Literal)

section Terms

variable (view : Variable → Variable)

mutual

/-- The remainder of a term, with its variables as `view` shows them. -/
def Term.remainder : Term → Remainder
  | .raw v => .value (ifBoxed Datum.marks v)
  | .var x => .var (view x)
  | .lit l => l.remainder

/-- The remainder of a literal. -/
def Literal.remainder : Literal → Remainder
  | ⟨_, arguments, annotations, _, _⟩ =>
      .literal (Term.remainderAll arguments)
        (Literal.substituteAll (fun x => .var (view x)) annotations)

/-- The remainders of a list of terms. -/
def Term.remainderAll : List Term → List Remainder
  | [] => []
  | t :: rest => t.remainder :: Term.remainderAll rest

end

theorem Datum.determined : Determined (Datum.outline (β := BoxId)) Datum.outline
    (ifBoxed Datum.marks) id :=
  .ofMarks (Datum.bind fun _ => .empty) (Datum.bind_bind_of_marks _ _)
    (Datum.bind_bind_of_marks _ _)

mutual

/-- Identity key and remainder determine a term, as far as `view` shows its variables. -/
theorem Term.determined : Determined Term.identity Term.identity (Term.remainder view)
    (Term.substitute fun x => .var (view x))
  | .raw v, .raw w, hkey, hrest =>
      congrArg Term.raw
        (Datum.determined v w (IdentityKey.value.inj hkey) (Remainder.value.inj hrest))
  | .var _, .var _, _, hrest => congrArg Term.var (Remainder.var.inj hrest)
  | .lit l, .lit m, hkey, hrest => congrArg Term.lit (Literal.determined l m hkey hrest)
  | .raw _, .var _, hkey, _ => nomatch hkey
  | .raw _, .lit ⟨_, _, _, _, _⟩, hkey, _ => nomatch hkey
  | .var _, .raw _, hkey, _ => nomatch hkey
  | .var _, .lit ⟨_, _, _, _, _⟩, hkey, _ => nomatch hkey
  | .lit ⟨_, _, _, _, _⟩, .raw _, hkey, _ => nomatch hkey
  | .lit ⟨_, _, _, _, _⟩, .var _, hkey, _ => nomatch hkey

/-- Identity key and remainder determine a literal, as far as `view` shows its variables. -/
theorem Literal.determined : Determined Literal.identity Literal.identity (Literal.remainder view)
    (Literal.substitute fun x => .var (view x))
  | ⟨_, arguments, _, _, _⟩, ⟨_, others, _, _, _⟩, hkey, hrest => by
      obtain ⟨rfl, rfl, rfl, harguments⟩ := IdentityKey.literal.inj hkey
      obtain ⟨hremainders, hannotations⟩ := Remainder.literal.inj hrest
      rw [Literal.substitute, Literal.substitute, hannotations,
        Term.determinedAll arguments others harguments hremainders]

theorem Term.determinedAll : Determined Term.identityAll Term.identityAll (Term.remainderAll view)
    (Term.substituteAll fun x => .var (view x))
  | [], [], _, _ => rfl
  | t :: rest, u :: others, hkey, hrest => by
      obtain ⟨hkey, hkeys⟩ := List.cons.inj hkey
      obtain ⟨hrest, hrests⟩ := List.cons.inj hrest
      exact congrArg₂ List.cons (Term.determined t u hkey hrest)
        (Term.determinedAll rest others hkeys hrests)
  | [], _ :: _, hkey, _ => nomatch hkey
  | _ :: _, [], hkey, _ => nomatch hkey

end

end Terms

/-- The key of a term that stands on its own and its remainder determine it. -/
theorem Term.determinedByKey (view : Variable → Variable) (h h' : Heap) :
    Determined (Term.key h) (Term.key h') (Term.remainder view)
      (Term.substitute fun x => .var (view x)) := by
  intro t u hkey hrest
  cases t with
  | raw v => cases u with
    | raw w =>
        have hvalue : Determined (Heap.unbox h) (Heap.unbox h') (ifBoxed Datum.marks) id :=
          .ofMarks (Datum.bind nofun) (h.bind_unbox_of_marks _) (h'.bind_unbox_of_marks _)
        exact congrArg Term.raw (hvalue v w (TermKey.value.inj hkey) (Remainder.value.inj hrest))
    | var y => cases hkey
    | lit m => cases hkey
  | var x => cases u with
    | raw w => cases hkey
    | var y => exact congrArg Term.var (Remainder.var.inj hrest)
    | lit m => cases hkey
  | lit l => cases u with
    | raw w => cases hkey
    | var y => cases hkey
    | lit m =>
        exact congrArg Term.lit (Literal.determined view l m (TermKey.literal.inj hkey) hrest)

/-! ## Steps -/

theorem Expression.determined (content later : BoxId → Tree) :
    Determined (ExpressionOf.bindBoxes content) (ExpressionOf.bindBoxes later)
      (ifBoxed ExpressionOf.marks) id :=
  .ofMarks (ExpressionOf.bindBoxes nofun) (ExpressionOf.bindBoxes_bindBoxes_of_marks _ _)
    (ExpressionOf.bindBoxes_bindBoxes_of_marks _ _)

theorem Directive.determined (content later : BoxId → Tree) :
    Determined (DirectiveOf.bindBoxes content) (DirectiveOf.bindBoxes later)
      (ifBoxed DirectiveOf.marks) id :=
  .ofMarks (DirectiveOf.bindBoxes nofun) (DirectiveOf.bindBoxes_bindBoxes_of_marks _ _)
    (DirectiveOf.bindBoxes_bindBoxes_of_marks _ _)

namespace Step

/-- How a step uses its variables: goals and calls pass on those that a context leaves. -/
def view : Step → Variable → Variable
  | .achieve _ _ => id
  | .rule _ => id
  | _ => Variable.cleared

/-- A step without the bindings of its variables, as far as they do not count. -/
def cleared (step : Step) : Step :=
  step.map id (Term.substitute fun x => .var (step.view x))
    (Literal.substitute fun x => .var (step.view x)) step.view

/-- What the key of a step leaves out. -/
def remainder (step : Step) : StepOf (Option Expression) Remainder Remainder Variable :=
  step.map (ifBoxed ExpressionOf.marks) (Term.remainder step.view) (Literal.remainder step.view)
    step.view

/-- The key of a step that was made with a heap. -/
def keyAt (h : Heap) (step : Step) : StepOf (ExpressionOf Empty) TermKey IdentityKey Path :=
  step.map (ExpressionOf.bindBoxes fun b => h.unbox (.box b)) (Term.key h) Literal.identity
    Variable.name

/-- Key and remainder determine a step, as far as the bindings of its variables count. -/
theorem determined (h h' : Heap) : Determined (keyAt h) (keyAt h') remainder cleared := by
  -- The keys show which of the ten steps both are; then part by part.
  intro step other hkey hrest
  have hexpression := Expression.determined (fun b => h.unbox (.box b)) fun b => h'.unbox (.box b)
  cases step with
  | action name arguments returns => cases other with
    | action name' arguments' returns' =>
        obtain ⟨rfl, harguments, -⟩ := StepOf.action.inj hkey
        obtain ⟨-, hremainders, hreturns⟩ := StepOf.action.inj hrest
        have hterms := (Term.determinedByKey Variable.cleared h h').list arguments arguments'
          harguments hremainders
        exact congrArg₂ (StepOf.action name) hterms hreturns
    | _ => cases hkey
  | addBelief l => cases other with
    | addBelief m =>
        exact congrArg StepOf.addBelief (Literal.determined Variable.cleared l m
          (StepOf.addBelief.inj hkey) (StepOf.addBelief.inj hrest))
    | _ => cases hkey
  | removeBelief l => cases other with
    | removeBelief m =>
        exact congrArg StepOf.removeBelief (Literal.determined Variable.cleared l m
          (StepOf.removeBelief.inj hkey) (StepOf.removeBelief.inj hrest))
    | _ => cases hkey
  | achieve l immediately => cases other with
    | achieve m immediately' =>
        obtain ⟨hliteral, rfl⟩ := StepOf.achieve.inj hkey
        exact congrArg (StepOf.achieve · immediately) (Literal.determined id l m hliteral
          (StepOf.achieve.inj hrest).1)
    | _ => cases hkey
  | unify l guard parallel => cases other with
    | unify m guard' parallel' =>
        obtain ⟨hliteral, hguard, rfl⟩ := StepOf.unify.inj hkey
        obtain ⟨hremainder, hboxed, -⟩ := StepOf.unify.inj hrest
        exact congrArg₂ (StepOf.unify · · parallel)
          (Literal.determined Variable.cleared l m hliteral hremainder)
          (hexpression.option guard guard' hguard hboxed)
    | _ => cases hkey
  | test e => cases other with
    | test e' =>
        exact congrArg StepOf.test (hexpression e e' (StepOf.test.inj hkey) (StepOf.test.inj hrest))
    | _ => cases hkey
  | assign name e => cases other with
    | assign name' e' =>
        obtain ⟨rfl, hvalue⟩ := StepOf.assign.inj hkey
        exact congrArg (StepOf.assign name) (hexpression e e' hvalue (StepOf.assign.inj hrest).2)
    | _ => cases hkey
  | increment name => cases other with
    | increment name' => exact congrArg StepOf.increment (StepOf.increment.inj hkey)
    | _ => cases hkey
  | decrement name => cases other with
    | decrement name' => exact congrArg StepOf.decrement (StepOf.decrement.inj hkey)
    | _ => cases hkey
  | rule l => cases other with
    | rule m =>
        exact congrArg StepOf.rule (Literal.determined id l m (StepOf.rule.inj hkey)
          (StepOf.rule.inj hrest))
    | _ => cases hkey

end Step

/-! ## Plans -/

/-- What the key of a plan leaves out. -/
structure PlanRemainder where
  literal : Remainder
  guard : Option (Option Expression)
  body : List (StepOf (Option Expression) Remainder Remainder Variable)
  annotations : List (Option Directive)

namespace Plan

/-- The remainder of a plan. -/
def remainder (p : Plan) : PlanRemainder where
  literal := p.trigger.literal.remainder Variable.cleared
  guard := p.guard.map (ifBoxed ExpressionOf.marks)
  body := p.body.map Step.remainder
  annotations := p.annotations.map (ifBoxed DirectiveOf.marks)

/-- A plan without the bindings of its variables, as far as they do not count. -/
def cleared (p : Plan) : Plan :=
  { p with
    trigger := ⟨p.trigger.kind, p.trigger.literal.cleared⟩
    body := p.body.map Step.cleared }

/-- A plan with the key that it got when it was made. -/
def Made (p : Plan) : Prop := ∃ h, p = build h p.trigger p.guard p.body p.annotations

/-- Key and remainder determine a plan, as far as the bindings of its variables count. -/
theorem cleared_eq_of_key {p q : Plan} (hp : p.Made) (hq : q.Made) (hkey : p.key = q.key)
    (hrest : p.remainder = q.remainder) : p.cleared = q.cleared := by
  obtain ⟨h, hp⟩ := hp
  obtain ⟨h', hq⟩ := hq
  have hkeys := hkey
  rw [hp, hq] at hkeys
  obtain ⟨hkind, hliteral, hguard, hbody, hannotations⟩ := PlanKey.mk.inj hkeys
  obtain ⟨hliteralRest, hguardRest, hbodyRest, hannotationsRest⟩ := PlanRemainder.mk.inj hrest
  have htrigger := Literal.determined Variable.cleared _ _ hliteral hliteralRest
  have hguards := (Expression.determined _ _).option _ _ hguard hguardRest
  have hbodies := (Step.determined h h').list _ _ hbody hbodyRest
  have hnotes := (Directive.determined _ _).list _ _ hannotations hannotationsRest
  rw [Option.map_id] at hguards
  rw [List.map_id, List.map_id] at hnotes
  simp only [cleared, Plan.mk.injEq, Trigger.mk.injEq]
  exact ⟨⟨hkind, htrigger⟩, hguards, hbodies, hnotes, hkey⟩

end Plan

end Deliberation
