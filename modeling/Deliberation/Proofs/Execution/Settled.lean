import Deliberation.Proofs.Execution.Outputs
import Deliberation.Proofs.Matching.Interleaving
import Deliberation.Proofs.Term.Orders

/-!
# What is left open in an execution

Two things may be different when an execution is repeated.  The values of a rule are
written outward in the order in which its variables are enumerated, and this order may
be any.  Several workers may write to the slots of mutex variables in any order.

A run is settled if other orders of enumeration give it the same result and lead it to
the same world and context.  It is when no rule has more than one variable that can
take a value outward.  Workers write to no slot when what runs on several of them has no
mutex variables.
-/

namespace Deliberation

variable {α : Type}

/-! ## Worlds and frames -/

/-- Two worlds are the same, but for the number of enumerations that led to them. -/
def World.Same (w other : World) : Prop := { w with enumerations := other.enumerations } = other

theorem World.Same.refl (w : World) : w.Same w := rfl

/-- Worlds that are the same with contexts that have the same variables. -/
structure Frame.Same (first second : Frame) : Prop where
  world : first.world.Same second.world
  lookup : ∀ name, first.context.get? name = second.context.get? name

theorem Frame.Same.refl (frame : Frame) : frame.Same frame := ⟨.refl frame.world, fun _ => rfl⟩

theorem World.Same.store {w other : World} (h : w.Same other) : w.store = other.store := by
  rw [← h]
  rfl

theorem Frame.Same.scope {first second : Frame} (h : first.Same second) :
    first.scope.Same second.scope :=
  ⟨h.world.store, h.lookup⟩

/-- Slots may be written in the one world as in the other. -/
theorem World.Same.withStore {w other : World} (h : w.Same other) (s : Store) :
    (w.withStore s).Same (other.withStore s) := by
  unfold World.Same at h ⊢
  rw [← h]
  rfl

theorem World.Same.trans {first second third : World} (h : first.Same second)
    (h' : second.Same third) : first.Same third := by
  unfold World.Same at h h' ⊢
  rw [← h', ← h]

/-! ## Orders of enumeration -/

/-- Variables come in the reverse of the order in which they came in. -/
def Enumeration.reversed : Enumeration :=
  ⟨fun _ vars => vars.reverse, fun _ vars => vars.reverse_perm⟩

/-- The environment in which the variables of contexts come in other orders. -/
def Environment.enumerating (env : Environment) (enumeration : Enumeration) : Environment :=
  { env with enumeration }

/-- A run from a frame does not depend on the orders in which variables are enumerated. -/
def Environment.Settled (env : Environment) (run : Environment → StepExec α) (frame : Frame) :
    Prop :=
  ∀ first second : Enumeration,
    (run (env.enumerating first) frame).1 = (run (env.enumerating second) frame).1 ∧
      (run (env.enumerating first) frame).2.Same (run (env.enumerating second) frame).2

/-! ## Workers -/

/-- A step is a unification whose candidates are tried by several workers at a time. -/
def Step.unifiesOnWorkers (env : Environment) : Step → Bool
  | .unify _ _ parallel => env.unifier.concurrent (parallel || env.parallelUnification)
  | _ => false

/--
Plans and rules leave nothing open to several workers: a parallel body has one worker,
and where candidates are tried by several ones, the context has no mutex variables.
-/
structure Environment.WorkersApart (env : Environment) (library : PlanLibrary) : Prop where
  bodies : ∀ event, ∀ p ∈ library.candidates event, p.isParallel = true → env.pool.threads = 1
  plans : ∀ event, ∀ p ∈ library.candidates event,
    p.body.any (Step.unifiesOnWorkers env) = true → ∀ x ∈ p.vars, x.isMutex = false
  rules : ∀ r ∈ env.rules, r.body.any (Step.unifiesOnWorkers env) = true →
    ∀ x ∈ r.head.vars ++ r.body.flatMap Step.vars, x.isMutex = false

/--
A step leaves nothing open to several workers, nor does what it calls: if it is a
unification that is tried by several ones, they have no mutex variable to write to.
-/
structure Step.WorkersApart (env : Environment) (frame : Frame) (step : Step) : Prop where
  called : env.WorkersApart frame.world.library
  own : ∀ l guard parallel, step = .unify l guard parallel →
    env.unifier.WorkersApart l frame.context (parallel || env.parallelUnification) frame.world.store

/-- One worker leaves nothing open. -/
theorem Environment.workersApart_of_one_worker {env : Environment} (h : env.pool.threads = 1)
    (library : PlanLibrary) : env.WorkersApart library := by
  have halone : ∀ step : Step, step.unifiesOnWorkers env = false := by
    intro step
    cases step with
    | unify l guard parallel =>
        have hpool : (env.unifier.pool.any fun pool => decide (1 < pool.threads)) = false := by
          rw [unifier, Option.any_some, h]
          rfl
        rw [Step.unifiesOnWorkers, Unifier.concurrent, hpool, Bool.and_false]
    | _ => rfl
  have hbody : ∀ body : List Step, body.any (Step.unifiesOnWorkers env) ≠ true := by
    intro body hany
    obtain ⟨step, -, hstep⟩ := List.any_eq_true.1 hany
    rw [halone] at hstep
    cases hstep
  exact ⟨fun _ _ _ _ => h, fun _ p _ hany => absurd hany (hbody p.body),
    fun r _ hany => absurd hany (hbody r.body)⟩

/-! ## Rules with one output -/

namespace Rule

/-- The variables that can take a value outward: those of the head, and relocating ones that the
rule has itself. -/
def outlets (r : Rule) : List Path :=
  (r.head.vars ++ (r.body.flatMap Step.vars).filter fun x => x.target?.isSome).map Variable.name

/-- A rule has at most one variable that can take a value outward. -/
def Lone (r : Rule) : Prop := ∀ first ∈ r.outlets, ∀ second ∈ r.outlets, first = second

end Rule

/-- Variables of which at most one takes a value outward are written in any order alike. -/
theorem Context.propagate_of_lone {own : Context} (hdistinct : own.Distinct) {names : List Path}
    (hlinks : own.Links fun name _ => name ∈ names)
    (hlone : ∀ first ∈ names, ∀ second ∈ names, first = second) {vars : List Variable}
    (hvars : vars.Perm own.vars) : Context.propagate vars = Context.propagate own.vars := by
  have hpairs : (own.vars.filterMap Variable.outward?).Pairwise fun _ _ => False := by
    rw [List.pairwise_filterMap]
    have hnames := List.pairwise_map.1 hdistinct
    refine hnames.imp_of_mem fun hx hy hne first hfirst second hsecond => ?_
    exact hne (hlone _ (hlinks.of_outward hdistinct hx hfirst) _
      (hlinks.of_outward hdistinct hy hsecond))
  have hperm := hvars.filterMap Variable.outward?
  have hsame : vars.filterMap Variable.outward? = own.vars.filterMap Variable.outward? :=
    hperm.eq_of_pairwise (fun _ _ _ _ h => h.elim) (hpairs.perm hperm.symm fun h => h) hpairs
  funext scope
  rw [Context.propagate_apply, Context.propagate_apply, hsame]

namespace Execution

section Lone

variable {env : Environment} {calls : Calls}

theorem links_of_winner (hactions : env.actions.KeepsSlots) (hcalls : calls.Confined)
    {call : Literal} {rules : List Rule} {w after : World} {r : Rule} {result : Fuzzy Bool}
    {own : Context} (h : winner env calls call rules w = (.ok (some (r, result, own)), after)) :
    r ∈ rules ∧ own.Distinct ∧ own.Links fun name _ => name ∈ r.outlets := by
  obtain ⟨hmem, -, before, -, htry⟩ := tried_of_winner hactions hcalls (Nat.zero_le _) h
  refine ⟨hmem, links_of_tryRule hactions hcalls (fun name target htarget => ?_) ?_ htry⟩
  · obtain ⟨x, hx, rfl, hown⟩ := r.links_context before.store name target htarget
    refine List.mem_map_of_mem ?_
    rcases List.mem_append.1 hx with hhead | hbody
    · exact List.mem_append_left _ hhead
    · exact List.mem_append_right _ (List.mem_filter.2 ⟨hbody, by rw [hown]; rfl⟩)
  · intro b hbind binding hbinding outer _
    have hname := (Match.drawn_of_bind hbind).names_subset (List.mem_map_of_mem hbinding)
    exact List.map_subset _ (List.subset_append_left _ _) hname

/-- A trigger is answered alike, whatever the order is, as long as its steps call the same. -/
theorem dispatchTo_enumerating (enumeration : Enumeration) (event : Trigger) (plans : List Plan) :
    dispatchTo (env.enumerating enumeration) calls event plans =
      dispatchTo env calls event plans := by
  induction plans with
  | nil => rfl
  | cons p rest ih =>
      rw [dispatchTo, dispatchTo, ih]
      rfl

/-- Which rule answers does not depend on the next enumeration. -/
theorem winner_enumerating (enumeration : Enumeration) (call : Literal) (rules : List Rule) :
    winner (env.enumerating enumeration) calls call rules = winner env calls call rules := by
  induction rules with
  | nil => rfl
  | cons r rest ih =>
      rw [winner, winner, ih]
      rfl

/-- The rules that answer a call write the same outward in any order. -/
theorem tryRules_enumerating (hactions : env.actions.KeepsSlots) (hcalls : calls.Confined)
    (enumeration : Enumeration) (call : Literal) {rules : List Rule}
    (hlone : ∀ r ∈ rules, r.Lone) :
    tryRules (env.enumerating enumeration) calls call rules = tryRules env calls call rules := by
  funext frame
  rw [tryRules_apply, tryRules_apply, winner_enumerating]
  cases hfound : winner env calls call rules frame.world with
  | mk found after =>
      match found with
      | .error halt => rfl
      | .ok none => rfl
      | .ok (some (r, result, own)) =>
          obtain ⟨hr, hdistinct, hlinks⟩ := links_of_winner hactions hcalls hfound
          have hany : ∀ {vars : List Variable}, vars.Perm own.vars →
              Context.propagate vars = Context.propagate own.vars :=
            fun hvars => Context.propagate_of_lone hdistinct hlinks (hlone r hr) hvars
          dsimp only
          rw [hany ((env.enumerating enumeration).enumeration.perm _ _),
            hany (env.enumeration.perm _ _)]

/-- When no rule has more than one output, the order of the outputs shows nowhere. -/
theorem callsTo_enumerating (hactions : env.actions.KeepsSlots) (hlone : ∀ r ∈ env.rules, r.Lone)
    (enumeration : Enumeration) (depth : Nat) :
    callsTo (env.enumerating enumeration) depth = callsTo env depth := by
  induction depth with
  | zero => rfl
  | succ n ih =>
      have hcalls := callsTo_confined hactions n
      have hdispatch : ∀ event, dispatchWith (env.enumerating enumeration) (callsTo env n) event =
          dispatchWith env (callsTo env n) event := by
        intro event
        simp only [dispatchWith, dispatchTo_enumerating]
      have hcallRule : ∀ l, callRuleWith (env.enumerating enumeration) (callsTo env n) l =
          callRuleWith env (callsTo env n) l := by
        intro l
        funext frame
        have htry := fun call => tryRules_enumerating hactions hcalls enumeration call
          fun r (hr : r ∈ env.rules.filter (·.accepts call)) => hlone r (List.mem_of_mem_filter hr)
        have hrules : (env.enumerating enumeration).rules = env.rules := rfl
        rw [callRuleWith_apply, callRuleWith_apply]
        simp only [hrules, htry]
      unfold callsTo
      rw [ih, funext hdispatch, funext hcallRule]

theorem settled_of_forall_eq {run : Environment → StepExec α} {frame : Frame}
    (h : ∀ enumeration, run (env.enumerating enumeration) frame = run env frame) :
    env.Settled run frame := by
  intro first second
  rw [h first, h second]
  exact ⟨rfl, .refl _⟩

theorem run_enumerating (enumeration : Enumeration) :
    Step.run (env.enumerating enumeration) = Step.run env := by
  funext calls parallel step
  cases step <;> rfl

/-- Where no rule has more than one output no step depends on the order. -/
theorem settled_run_of_lone (hactions : env.actions.KeepsSlots) (hlone : ∀ r ∈ env.rules, r.Lone)
    (depth : Nat) (parallel : Bool) (step : Step) (frame : Frame) :
    env.Settled (fun env => step.run env (callsTo env depth) parallel) frame :=
  settled_of_forall_eq fun enumeration => by
    rw [callsTo_enumerating hactions hlone, run_enumerating]

theorem settled_runSequence_of_lone (hactions : env.actions.KeepsSlots)
    (hlone : ∀ r ∈ env.rules, r.Lone) (depth : Nat) (steps : List Step) (frame : Frame) :
    env.Settled (fun env => runSequence env depth steps) frame :=
  settled_of_forall_eq fun enumeration => by
    rw [runSequence, callsTo_enumerating hactions hlone, Body.runSequence, run_enumerating]
    rfl

end Lone

end Execution

end Deliberation
