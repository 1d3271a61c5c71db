/-!
# Errors

An error is a structural defect: it aborts the plan that meets it.  Outcomes
that plans have to live with, such as a belief that does not match or a guard
that rejects, are not errors but false fuzzy values.

Each type lists the causes of one layer and contains those of the layer below.
The wording stands in `message`, the stable identifier in `code`, and the advice
in `help`.
-/

namespace Deliberation

/-- Defects of terms and contexts. -/
inductive TermError where
  | emptyFunctor
  | unboundVariable (name : String)
  | constantRebind (name : String)
  | typeMismatch (expected found : String)
deriving DecidableEq

/-- Defects of operations on belief views. -/
inductive BeliefError where
  | emptyPath
  | viewNotFound (path : String)
  | viewExists (name parent : String)
  | cyclicAlias (name parent : String)
deriving DecidableEq

/-- Defects met while a step runs. -/
inductive ExecutionError where
  | actionNotFound (name : String)
  | argumentCount (name : String) (minimum actual : Nat)
  | action (name message : String)
  | ruleNotFound (name : String)
  | divisionByZero
  | term (cause : TermError)
  | belief (cause : BeliefError)
deriving DecidableEq

/-- Defects of an agent and of its configuration. -/
inductive AgentError where
  | unhandledGoal (trigger : String)
  | invalidConfig (field message : String)
  | configIo (path message : String)
  | configParse
  | execution (cause : ExecutionError)
deriving DecidableEq

instance : Coe TermError ExecutionError := ⟨.term⟩

instance : Coe BeliefError ExecutionError := ⟨.belief⟩

instance : Coe ExecutionError AgentError := ⟨.execution⟩

namespace TermError

def message : TermError → String
  | emptyFunctor => "empty functor: a literal needs at least one non-empty path segment"
  | unboundVariable name => "variable \"" ++ name ++ "\" is read before it was bound"
  | constantRebind name => "constant \"" ++ name ++ "\" cannot be rebound"
  | typeMismatch expected found =>
      "type mismatch: expected " ++ expected ++ ", found " ++ found

def code : TermError → String
  | emptyFunctor => "akh::term::empty_functor"
  | unboundVariable _ => "akh::term::unbound_variable"
  | constantRebind _ => "akh::term::constant_rebind"
  | typeMismatch _ _ => "akh::term::type_mismatch"

def help : TermError → String
  | emptyFunctor => "Construct literals with a functor such as \"foo\" or \"a/b/foo\"."
  | unboundVariable _ =>
      "The plan reads a variable that neither the trigger, the guard, nor an earlier step " ++
        "binds. Check the plan source for a misspelled variable name."
  | constantRebind _ =>
      "Constants receive their value when the context is created. Use a free variable instead."
  | typeMismatch _ _ =>
      "The operation received a value of the wrong kind. Check the argument order."

end TermError

namespace BeliefError

def message : BeliefError → String
  | emptyPath => "empty path"
  | viewNotFound path => "view not found: " ++ path
  | viewExists name parent =>
      "view name collision: \"" ++ name ++ "\" already exists under " ++ parent
  | cyclicAlias name parent =>
      "alias \"" ++ name ++ "\" under " ++ parent ++ " would make the view tree cyclic"

def code : BeliefError → String
  | emptyPath => "akh::belief::empty_path"
  | viewNotFound _ => "akh::belief::view_not_found"
  | viewExists _ _ => "akh::belief::view_exists"
  | cyclicAlias _ _ => "akh::belief::cyclic_alias"

def help : BeliefError → String
  | emptyPath => "Belief operations need a path with at least one segment."
  | viewNotFound _ =>
      "An intermediate view along the path does not exist. Add it first, " ++
        "or pass a view generator so missing views are created on demand."
  | viewExists _ _ =>
      "Remove the existing view first, or choose a different name for the alias."
  | cyclicAlias _ _ =>
      "A view cannot be attached below itself. Alias it under an unrelated view."

end BeliefError

namespace ExecutionError

def message : ExecutionError → String
  | actionNotFound name => "action not found: \"" ++ name ++ "\""
  | argumentCount name minimum actual =>
      "action \"" ++ name ++ "\" needs at least " ++ toString minimum ++ " arguments, got " ++
        toString actual
  | action name message => "action \"" ++ name ++ "\" failed: " ++ message
  | ruleNotFound name => "rule not found: \"" ++ name ++ "\""
  | divisionByZero => "division by zero"
  | term cause => cause.message
  | belief cause => cause.message

def code : ExecutionError → String
  | actionNotFound _ => "akh::exec::action_not_found"
  | argumentCount _ _ _ => "akh::exec::argument_count"
  | action _ _ => "akh::exec::action"
  | ruleNotFound _ => "akh::exec::rule_not_found"
  | divisionByZero => "akh::exec::division_by_zero"
  | term cause => cause.code
  | belief cause => cause.code

def help : ExecutionError → String
  | actionNotFound _ =>
      "Register the action in the ActionRegistryBuilder before constructing the agent."
  | argumentCount _ _ _ =>
      "Check the call site in the plan body against the action's signature."
  | action _ _ => "The action raised a hard error. Check the inner message for details."
  | ruleNotFound _ => "No rule with this functor and arity is defined for the agent."
  | divisionByZero => "Guard the division with a test step, e.g. `Y != 0`."
  | term cause => cause.help
  | belief cause => cause.help

end ExecutionError

namespace AgentError

def message : AgentError → String
  | unhandledGoal trigger => "no plan handles goal trigger " ++ trigger
  | invalidConfig field message => "invalid agent configuration: " ++ field ++ " — " ++ message
  | configIo path message =>
      "cannot read agent configuration \"" ++ path ++ "\": " ++ message
  | configParse => "cannot parse agent configuration"
  | execution cause => cause.message

def code : AgentError → String
  | unhandledGoal _ => "akh::agent::unhandled_goal"
  | invalidConfig _ _ => "akh::agent::invalid_config"
  | configIo _ _ => "akh::agent::config_io"
  | configParse => "akh::agent::config_parse"
  | execution cause => cause.code

def help : AgentError → String
  | unhandledGoal _ =>
      "Goals are expected to be achievable. Add a plan whose trigger unifies with the goal " ++
        "and whose guard holds, or disable `strict_goals` in the agent config."
  | invalidConfig _ _ => "Check the agent configuration file against the documented defaults."
  | configIo _ _ => "Check that the configuration file exists and is readable."
  | configParse =>
      "The configuration must be valid TOML. Check the reported line and column."
  | execution cause => cause.help

end AgentError

end Deliberation
