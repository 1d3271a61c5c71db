import Deliberation.Plan.Expression

/-!
# Steps

The steps of plan and rule bodies, over any types of expressions, terms,
literals and variables.
-/

namespace Deliberation

/-- One element of a body. -/
inductive StepOf (E T L V : Type) where
  /-- Call an action; its results are bound to `returns` in order. -/
  | action (name : Path) (arguments : List T) (returns : List V)
  /-- Add a ground belief. -/
  | addBelief (literal : L)
  /-- Remove a ground belief. -/
  | removeBelief (literal : L)
  /-- Ask for a goal, either later or immediately. -/
  | achieve (literal : L) (immediately : Bool)
  /-- Unify with the beliefs. -/
  | unify (literal : L) (guard : Option E) (parallel : Bool)
  /-- Test a condition. -/
  | test (condition : E)
  /-- Bind a variable to the value of an expression. -/
  | assign (name : Path) (expression : E)
  | increment (name : Path)
  | decrement (name : Path)
  /-- Call a rule. -/
  | rule (call : L)
deriving DecidableEq

/-- A step of a live plan. -/
abbrev Step := StepOf Expression Term Literal Variable

/-- Change the parts of a step. -/
def StepOf.map {E T L V E₁ T₁ L₁ V₁ : Type} (e : E → E₁) (t : T → T₁) (l : L → L₁) (v : V → V₁) :
    StepOf E T L V → StepOf E₁ T₁ L₁ V₁
  | .action name arguments returns => .action name (arguments.map t) (returns.map v)
  | .addBelief literal => .addBelief (l literal)
  | .removeBelief literal => .removeBelief (l literal)
  | .achieve literal immediately => .achieve (l literal) immediately
  | .unify literal guard parallel => .unify (l literal) (guard.map e) parallel
  | .test condition => .test (e condition)
  | .assign name expression => .assign name (e expression)
  | .increment name => .increment name
  | .decrement name => .decrement name
  | .rule call => .rule (l call)

namespace Step

/-- Unbound variables with the given names. -/
def named (names : List Path) : List Variable := names.map Variable.unbound

/-- The variables that a step reads or binds, each name once. -/
def vars (step : Step) : List Variable :=
  Variable.distinct <|
    match step with
    | .action _ arguments returns => Term.occurrencesAll arguments ++ returns
    | .addBelief literal => literal.occurrences
    | .removeBelief literal => literal.occurrences
    | .achieve literal _ => literal.occurrences
    | .unify literal guard _ =>
        literal.occurrences ++
          match guard with
          | some condition => named condition.vars
          | none => []
    | .test condition => named condition.vars
    | .assign name expression => named (name :: expression.vars)
    | .increment name => named [name]
    | .decrement name => named [name]
    | .rule call => call.occurrences

end Step

end Deliberation
