import Deliberation.Matching.Match
import Deliberation.Plan.Step
import Deliberation.Plan.Trigger

/-!
# Plans and rules

A plan is a template: a trigger, a guard, a body of steps and annotations.  It
has a key, fixed when the plan is made, by which it is told from other plans.
A rule is a head with a body; it is called by a step.
-/

namespace Deliberation

/-- A note on a plan, with boxes in its value marked by `β`. -/
inductive DirectiveOf (β : Type) where
  /-- Report success to the caller even when the body fails. -/
  | atomic
  /-- Run all steps, each on a copy of the context. -/
  | parallel
  /-- Bind a constant in every context of the plan. -/
  | constant (name : Path) (value : Datum β)
deriving DecidableEq

/-- A note on a live plan. -/
abbrev Directive := DirectiveOf BoxId

namespace DirectiveOf

def bindBoxes {β γ : Type} (f : β → Datum γ) : DirectiveOf β → DirectiveOf γ
  | .atomic => .atomic
  | .parallel => .parallel
  | .constant name value => .constant name (value.bind f)

def label {β : Type} : DirectiveOf β → String
  | .atomic => "atomic"
  | .parallel => "parallel"
  | .constant _ _ => "constant"

end DirectiveOf

/--
What tells two plans apart: constants and raw arguments by the content they had
when the plan was made, literals by identity, variables by name.
-/
structure PlanKey where
  kind : TriggerKind
  literal : IdentityKey
  guard : Option (ExpressionOf Empty)
  body : List (StepOf (ExpressionOf Empty) TermKey IdentityKey Path)
  annotations : List (DirectiveOf Empty)
deriving DecidableEq

/-- A template that answers a trigger. -/
structure Plan where
  trigger : Trigger
  guard : Option Expression
  body : List Step
  annotations : List Directive
  key : PlanKey

namespace Plan

/-- Make a plan; its key takes the contents of boxes as they are now. -/
def build (h : Heap) (trigger : Trigger) (guard : Option Expression) (body : List Step)
    (annotations : List Directive) : Plan :=
  let content := fun b : BoxId => h.unbox (.box b)
  { trigger, guard, body, annotations
    key :=
      { kind := trigger.kind
        literal := trigger.literal.identity
        guard := guard.map (ExpressionOf.bindBoxes content)
        body := body.map
          (StepOf.map (ExpressionOf.bindBoxes content) (Term.key h) Literal.identity Variable.name)
        annotations := annotations.map (DirectiveOf.bindBoxes content) } }

def isAtomic (p : Plan) : Bool :=
  p.annotations.any fun a => match a with
    | .atomic => true
    | _ => false

def isParallel (p : Plan) : Bool :=
  p.annotations.any fun a => match a with
    | .parallel => true
    | _ => false

/-- The constants that the annotations declare. -/
def constants (p : Plan) : List Variable :=
  p.annotations.filterMap fun a => match a with
    | .constant name value => some ⟨name, .constant (.raw value)⟩
    | _ => none

/-- The variables of trigger, guard and body in the order of their appearance. -/
def vars (p : Plan) : List Variable :=
  p.trigger.literal.vars ++
    (match p.guard with
      | some condition => Step.named condition.vars
      | none => []) ++
    p.body.flatMap Step.vars

/-- A new context with all the variables of the plan unbound, and its constants. -/
def context (p : Plan) : StateM Store Context := do
  let c ← Context.ofVariables p.vars
  pure (p.constants.foldl Context.insert c)

/-- The text of a plan. -/
def render (s : Store) (p : Plan) : String :=
  p.trigger.render s ++
    (if p.annotations.isEmpty then ""
      else " @[" ++ ", ".intercalate (p.annotations.map DirectiveOf.label) ++ "]") ++
    " (" ++ toString p.body.length ++ " steps)"

end Plan

/-- A named body that steps can call. -/
structure Rule where
  head : Literal
  body : List Step

namespace Rule

/-- Whether a rule can answer a call: functor, negation and arity agree. -/
def accepts (r : Rule) (call : Literal) : Bool :=
  r.head.functor = call.functor && r.head.negated = call.negated && r.head.arity = call.arity

/-- A new context with all the variables of the rule unbound. -/
def context (r : Rule) : StateM Store Context :=
  Context.ofVariables (r.head.vars ++ r.body.flatMap Step.vars)

/--
Bind a head variable to what the call has in its place.  An unbound variable of
the caller makes it a relocating variable, through which the result flows back.
-/
def bindHead (name : Path) (t : Term) : Context.Writing Unit := do
  let scope ← get
  match t with
  | .var outer =>
      if outer.isBound scope.store then Context.bind name (t.resolve scope.store)
      else set { scope with context := scope.context.insert ⟨name, .relocate outer.name none⟩ }
  | _ => Context.bind name (t.resolve scope.store)

/-- Bind the head variables in turn. -/
def bindHeads : List Binding → Context.Writing Unit
  | [] => pure ()
  | binding :: rest => do
      bindHead binding.name binding.value
      bindHeads rest

/-- The text of a rule. -/
def render (s : Store) (r : Rule) : String :=
  r.head.render s ++ " :- " ++ toString r.body.length ++ " steps"

end Rule

end Deliberation
