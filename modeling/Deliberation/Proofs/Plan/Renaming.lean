import Deliberation.Plan.Library
import Deliberation.Proofs.Matching.Renaming

/-!
# Renaming the variables of plans and rules

Expressions, steps, plans and rules name their variables, and a renaming changes
all of these names at once.  The key of a plan stays, since it only tells plans
apart.  A renamed plan or rule starts with a renamed context, and a renamed
expression has the same value in a renamed context.
-/

namespace Deliberation

/-! ## Expressions -/

/-- Rename the variables of an expression. -/
def ExpressionOf.rename {β : Type} (f : Path → Path) : ExpressionOf β → ExpressionOf β
  | .constant value => .constant value
  | .var name => .var (f name)
  | .unary op operand => .unary op (operand.rename f)
  | .binary op left right => .binary op (left.rename f) (right.rename f)

section Expressions

variable {f : Path → Path}

theorem ExpressionOf.occurrences_rename {β : Type} (e : ExpressionOf β) :
    (e.rename f).occurrences = e.occurrences.map f := by
  induction e with
  | constant value => rfl
  | var name => rfl
  | unary op operand ih => exact ih
  | binary op left right ihLeft ihRight =>
      rw [ExpressionOf.rename, ExpressionOf.occurrences, ExpressionOf.occurrences, ihLeft, ihRight,
        List.map_append]

variable (hf : Function.Injective f)

include hf

theorem ExpressionOf.vars_rename {β : Type} (e : ExpressionOf β) :
    (e.rename f).vars = e.vars.map f := by
  have hfold : ∀ names found : List Path,
      (names.map f).foldl (fun found name => if found.contains name then found else found ++ [name])
          (found.map f) =
        (names.foldl (fun found name => if found.contains name then found else found ++ [name])
          found).map f := by
    intro names
    induction names with
    | nil => exact fun _ => rfl
    | cons name rest ih =>
        intro found
        have hcontains : (found.map f).contains (f name) = found.contains name := by
          rw [Bool.eq_iff_iff, List.contains_iff_mem, List.contains_iff_mem,
            List.mem_map_of_injective hf]
        rw [List.map_cons, List.foldl_cons, List.foldl_cons, hcontains]
        by_cases hknown : found.contains name = true
        · rw [if_pos hknown, if_pos hknown]
          exact ih found
        · rw [if_neg hknown, if_neg hknown, ← List.map_singleton, ← List.map_append]
          exact ih _
  unfold ExpressionOf.vars
  rw [ExpressionOf.occurrences_rename]
  exact hfold e.occurrences []

/-- An expression has the same value in a renamed context. -/
theorem Expression.evaluate_rename (s : Store) (c : Context) (e : Expression) :
    Both ExecutionError.code Eq (evaluate s c e)
      (evaluate (s.rename f) (c.rename f) (ExpressionOf.rename f e)) := by
  induction e with
  | constant value => exact .ok rfl
  | var name =>
      refine .bindBecomes ((Context.value_rename hf s c name).mapError fun _ _ h => h) fun t => ?_
      exact .bindEq ((t.rawValue_rename f s).mapError fun _ _ h => h) fun v => .ok rfl
  | unary op operand ih => exact .bindEq ih fun v => .refl _ _
  | binary op left right ihLeft ihRight =>
      refine .bindEq ihLeft fun a => ?_
      cases decided op a with
      | some v => exact .ok rfl
      | none => exact .bindEq ihRight fun b => .refl _ _

theorem Expression.evaluateFuzzy_rename (s : Store) (c : Context) (e : Expression) :
    Both ExecutionError.code Eq (evaluateFuzzy s c e)
      (evaluateFuzzy (s.rename f) (c.rename f) (ExpressionOf.rename f e)) := by
  refine .bindEq (evaluate_rename hf s c e) fun v => ?_
  exact .bindEq (.refl _ _) fun b => .ok rfl

end Expressions

/-! ## Steps -/

/-- Rename the variables of a step. -/
def Step.rename (f : Path → Path) : Step → Step
  | .action name arguments returns =>
      .action name (arguments.map (Term.rename f)) (returns.map (Variable.rename f))
  | .addBelief literal => .addBelief (literal.rename f)
  | .removeBelief literal => .removeBelief (literal.rename f)
  | .achieve literal immediately => .achieve (literal.rename f) immediately
  | .unify literal guard parallel =>
      .unify (literal.rename f) (guard.map (ExpressionOf.rename f)) parallel
  | .test condition => .test (condition.rename f)
  | .assign name expression => .assign (f name) (expression.rename f)
  | .increment name => .increment (f name)
  | .decrement name => .decrement (f name)
  | .rule call => .rule (call.rename f)

section Steps

variable {f : Path → Path}

theorem Step.named_map (names : List Path) :
    Step.named (names.map f) = (Step.named names).map (Variable.rename f) := by
  rw [Step.named, Step.named, List.map_map, List.map_map]
  rfl

theorem Step.vars_rename (hf : Function.Injective f) (step : Step) :
    (step.rename f).vars = step.vars.map (Variable.rename f) := by
  have hnamed : ∀ e : Expression, Step.named (ExpressionOf.rename f e).vars =
      (Step.named e.vars).map (Variable.rename f) := by
    intro e
    rw [ExpressionOf.vars_rename hf, Step.named_map]
  unfold Step.vars
  rw [← Variable.distinct_map hf fun x => x.name_rename f]
  congr 1
  cases step with
  | action name arguments returns =>
      change Term.occurrencesAll (arguments.map (Term.rename f)) ++
        returns.map (Variable.rename f) =
          (Term.occurrencesAll arguments ++ returns).map (Variable.rename f)
      rw [Term.occurrencesAll_eq, Term.occurrencesAll_eq, List.map_append, List.map_flatMap,
        List.flatMap_map]
      congr 2
      funext t
      exact t.occurrences_rename f
  | addBelief l => exact l.occurrences_rename f
  | removeBelief l => exact l.occurrences_rename f
  | achieve l immediately => exact l.occurrences_rename f
  | unify l guard parallel =>
      cases guard with
      | none =>
          dsimp only [Step.rename, Option.map_none]
          rw [Literal.occurrences_rename, List.append_nil, List.append_nil]
      | some condition =>
          dsimp only [Step.rename, Option.map_some]
          rw [Literal.occurrences_rename, hnamed, List.map_append]
  | test condition => exact hnamed condition
  | assign name e =>
      dsimp only [Step.rename]
      rw [ExpressionOf.vars_rename hf, ← List.map_cons, Step.named_map]
  | increment name => exact Step.named_map [name]
  | decrement name => exact Step.named_map [name]
  | rule call => exact call.occurrences_rename f

/-- The variables of a renamed body. -/
theorem Step.flatMap_vars_rename (hf : Function.Injective f) (body : List Step) :
    (body.map (Step.rename f)).flatMap Step.vars =
      (body.flatMap Step.vars).map (Variable.rename f) := by
  rw [List.flatMap_map, List.map_flatMap]
  congr 1
  funext step
  exact step.vars_rename hf

end Steps

/-! ## Triggers, plans and rules -/

/-- Rename the variables of a trigger. -/
def Trigger.rename (f : Path → Path) (t : Trigger) : Trigger := ⟨t.kind, t.literal.rename f⟩

/-- Rename the constant that an annotation declares. -/
def DirectiveOf.rename {β : Type} (f : Path → Path) : DirectiveOf β → DirectiveOf β
  | .atomic => .atomic
  | .parallel => .parallel
  | .constant name value => .constant (f name) value

/-- Rename the variables of a plan; its key stays. -/
def Plan.rename (f : Path → Path) (p : Plan) : Plan :=
  { trigger := p.trigger.rename f
    guard := p.guard.map (ExpressionOf.rename f)
    body := p.body.map (Step.rename f)
    annotations := p.annotations.map (DirectiveOf.rename f)
    key := p.key }

/-- Rename the variables of a rule. -/
def Rule.rename (f : Path → Path) (r : Rule) : Rule := ⟨r.head.rename f, r.body.map (Step.rename f)⟩

section Plans

variable {f : Path → Path}

theorem Plan.isAtomic_rename (p : Plan) : (p.rename f).isAtomic = p.isAtomic := by
  unfold Plan.isAtomic Plan.rename
  rw [List.any_map]
  congr 1
  funext a
  cases a <;> rfl

theorem Plan.isParallel_rename (p : Plan) : (p.rename f).isParallel = p.isParallel := by
  unfold Plan.isParallel Plan.rename
  rw [List.any_map]
  congr 1
  funext a
  cases a <;> rfl

theorem Plan.constants_rename (p : Plan) :
    (p.rename f).constants = p.constants.map (Variable.rename f) := by
  unfold Plan.constants Plan.rename
  rw [List.filterMap_map, List.map_filterMap]
  congr 1
  funext a
  cases a <;> rfl

theorem Rule.accepts_rename (r : Rule) (call : Literal) :
    (r.rename f).accepts (call.rename f) = r.accepts call := by
  simp only [Rule.accepts, Rule.rename, Literal.functor_rename, Literal.negated_rename,
    Literal.arity_rename]

variable (hf : Function.Injective f)

include hf

theorem Plan.vars_rename (p : Plan) : (p.rename f).vars = p.vars.map (Variable.rename f) := by
  unfold Plan.vars
  rw [List.map_append, List.map_append]
  refine congrArg₂ List.append (congrArg₂ List.append (Literal.vars_rename hf _) ?_)
    (Step.flatMap_vars_rename hf p.body)
  dsimp only [Plan.rename]
  cases p.guard with
  | none => rfl
  | some condition =>
      dsimp only [Option.map_some]
      rw [ExpressionOf.vars_rename hf, Step.named_map]

/-- A renamed plan starts with a renamed context. -/
theorem Plan.context_rename (p : Plan) (s : Store) :
    (p.rename f).context (s.rename f) = ((p.context s).1.rename f, (p.context s).2.rename f) := by
  have hconstants : ∀ (constants : List Variable) (c : Context),
      (constants.map (Variable.rename f)).foldl Context.insert (c.rename f) =
        (constants.foldl Context.insert c).rename f := by
    intro constants
    induction constants with
    | nil => exact fun _ => rfl
    | cons x rest ih =>
        intro c
        rw [List.map_cons, List.foldl_cons, List.foldl_cons, Context.insert_rename hf]
        exact ih _
  have hvars := Context.ofVariables_rename hf p.vars s
  change ((p.rename f).constants.foldl Context.insert
      (Context.ofVariables (p.rename f).vars (s.rename f)).1,
        (Context.ofVariables (p.rename f).vars (s.rename f)).2) = _
  rw [Plan.vars_rename hf, hvars, Plan.constants_rename, hconstants]
  rfl

/-- A renamed rule starts with a renamed context. -/
theorem Rule.context_rename (r : Rule) (s : Store) :
    (r.rename f).context (s.rename f) = ((r.context s).1.rename f, (r.context s).2.rename f) := by
  unfold Rule.context Rule.rename
  rw [Literal.vars_rename hf, Step.flatMap_vars_rename hf, ← List.map_append]
  exact Context.ofVariables_rename hf _ s

/-- A head variable is bound to what the renamed call has in its place. -/
theorem Rule.bindHead_rename (name : Path) (t : Term) :
    Mirrors TermError.code (Becomes (Context.Scope.rename f)) Eq (Rule.bindHead name t)
      (Rule.bindHead (f name) (t.rename f)) := by
  refine .bind .get fun scope _ hscope => ?_
  cases hscope
  have hbind := Context.bind_rename hf name (t.resolve scope.store)
  rw [← Term.resolve_rename] at hbind
  cases t with
  | raw v => exact hbind
  | lit l => exact hbind
  | var outer =>
      dsimp only [Term.rename] at hbind ⊢
      rw [show (scope.rename f).store = scope.store.rename f from rfl, Variable.isBound_rename]
      split
      · exact hbind
      · refine .set ?_
        have hinsert := Context.insert_rename hf scope.context ⟨name, .relocate outer.name none⟩
        rw [Variable.rename, Cell.rename] at hinsert
        rw [Variable.name_rename]
        exact congrArg (Context.Scope.mk (scope.store.rename f)) hinsert

theorem Rule.bindHeads_rename (bindings : List Binding) :
    Mirrors TermError.code (Becomes (Context.Scope.rename f)) Eq (Rule.bindHeads bindings)
      (Rule.bindHeads (bindings.map (Binding.rename f))) := by
  induction bindings with
  | nil => exact .pure rfl
  | cons binding rest ih =>
      exact .bindEq (Rule.bindHead_rename hf binding.name binding.value) fun _ => ih

end Plans

/-! ## Libraries -/

namespace PlanLibrary

/-- Rename the variables of the plans of a library. -/
def rename (f : Path → Path) (library : PlanLibrary) : PlanLibrary :=
  { library with groups := library.groups.mapValues (List.map (Plan.rename f)) }

theorem candidates_rename {f : Path → Path} (library : PlanLibrary) (t : Trigger) :
    (library.rename f).candidates (t.rename f) = (library.candidates t).map (Plan.rename f) := by
  have hkey : (t.rename f).key = t.key := by
    rw [Trigger.key, Trigger.rename, Literal.functor_rename, Trigger.key]
  unfold candidates rename
  dsimp only
  rw [hkey, Table.get?_mapValues]
  cases library.groups.get? t.key <;> rfl

end PlanLibrary

end Deliberation
