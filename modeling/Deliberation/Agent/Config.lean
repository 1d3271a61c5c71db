import Deliberation.Error
import Deliberation.Fuzzy
import Deliberation.Toml.Reader

/-!
# Configuration

The settings of one agent.  A configuration text gives any of them; the others
have their defaults, and keys that are not known are passed over.
-/

namespace Deliberation

/-- The settings of an agent. -/
structure Config where
  name : String := "agent"
  /-- The size of the worker pool. -/
  workerThreads : Nat := 4
  /-- Whether the candidates of a unification are tried on the worker pool. -/
  parallelUnification : Bool := false
  strategy : Strategy := .crisp
  /-- Whether a goal that no plan handles is an error. -/
  strictGoals : Bool := false
  /-- How many triggers one cycle takes at most. -/
  maxTriggersPerCycle : Nat := 1024

namespace Config

/-- Check the settings; the first one that is out of bounds is reported. -/
def validate (config : Config) : Except AgentError Unit :=
  if config.workerThreads = 0 then
    .error (.invalidConfig "worker_threads" "must be at least 1")
  else if config.maxTriggersPerCycle = 0 then
    .error (.invalidConfig "max_triggers_per_cycle" "must be at least 1")
  else
    match config.strategy with
    | .crisp => .ok ()
    | .threshold least =>
        if Binary64.zero.le least && least.le Binary64.one then .ok ()
        else .error (.invalidConfig "defuzzify" "threshold must lie in [0, 1]")

/-! ## Reading -/

/-- A setting that may be missing; one that cannot be read spoils the whole configuration. -/
def setting {α : Type} (entries : Toml.Entries) (key : String) (read : Toml.Item → Option α)
    (default : α) : Option α :=
  match Table.find key entries with
  | some item => read item
  | none => some default

def text? : Toml.Item → Option String
  | .text s => some s
  | _ => none

def bool? : Toml.Item → Option Bool
  | .boolean b => some b
  | _ => none

def count? : Toml.Item → Option Nat
  | .integer i => if 0 ≤ i then some i.toNat else none
  | _ => none

/-- A number; integers are widened. -/
def number? : Toml.Item → Option Binary64
  | .integer i => some (Binary64.ofInt i)
  | .float x => some x
  | _ => none

/-- The name of a kind: a text, or a table with the name as its only key and nothing in it. -/
def kindName? : Toml.Item → Option String
  | .text s => some s
  | .table _ [(s, .table _ [])] => some s
  | .table _ [(s, .array [])] => some s
  | _ => none

/-- A strategy from the name of its kind and the threshold that may go with it. -/
def strategyOf? (name : String) (threshold : Option Toml.Item) : Option Strategy :=
  if name = "crisp" then
    match threshold with
    | none => some .crisp
    | some _ => none
  else if name = "threshold" then do
    let least ← threshold.bind number?
    some (.threshold least)
  else none

/-- A strategy: a table of kind and threshold, or an array that starts with a kind by name and a
threshold. -/
def strategy? : Toml.Item → Option Strategy
  | .table _ entries => do
      let kind ← Table.find "kind" entries
      let name ← kindName? kind
      strategyOf? name (Table.find "threshold" entries)
  | .array (kind :: threshold :: _) => do
      let name ← text? kind
      strategyOf? name (some threshold)
  | _ => none

/-- The settings that the entries of a document give. -/
def ofEntries? (entries : Toml.Entries) : Option Config := do
  let default : Config := {}
  let name ← setting entries "name" text? default.name
  let workerThreads ← setting entries "worker_threads" count? default.workerThreads
  let parallelUnification ←
    setting entries "parallel_unification" bool? default.parallelUnification
  let strategy ← setting entries "defuzzify" strategy? default.strategy
  let strictGoals ← setting entries "strict_goals" bool? default.strictGoals
  let maxTriggersPerCycle ←
    setting entries "max_triggers_per_cycle" count? default.maxTriggersPerCycle
  some { name, workerThreads, parallelUnification, strategy, strictGoals, maxTriggersPerCycle }

/-- Read and check a configuration text. -/
def ofText (text : String) : Except AgentError Config :=
  match (Toml.parse? text).bind ofEntries? with
  | none => .error .configParse
  | some config => do
      config.validate
      pure config

/-- Read and check a configuration file, given what came of reading it. -/
def ofFile (path : String) (content : Except String String) : Except AgentError Config :=
  match content with
  | .ok text => ofText text
  | .error message => .error (.configIo path message)

end Config

end Deliberation
