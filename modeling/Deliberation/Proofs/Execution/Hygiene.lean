import Deliberation.Proofs.Execution.Enumeration
import Deliberation.Proofs.Execution.Renaming
import Deliberation.Proofs.Execution.Settled
import Mathlib.Logic.Equiv.Basic

/-!
# Names of rule variables

The variables of a rule live in a context of their own, but they meet those of
the caller in two places.  The head is matched against the call with both kinds
of variables told apart by name alone, and a term of the call that has variables
is kept in the context of the rule.  So a rule whose variables have names of the
caller may fail where another one succeeds.

As long as the names of a rule occur nowhere else, they do not matter: to rename
the variables of the rule is to rename those of everything, and every execution
follows such a renaming.  The order in which values are written outward has to be
the same, or one that does not matter.
-/

namespace Deliberation

variable {f : Path → Path}

/-! ## Actions that every agent may have -/

namespace ActionRegistry

/-- A registry is blind to names if its actions are. -/
theorem blind_of_actions {registry : ActionRegistry}
    (h : ∀ name action, registry.get? name = some action → ∀ parallel (c : Context) arguments,
      Mirrors ExecutionError.code (Host.Renames f)
        (Becomes fun answer => (answer.1, answer.2.map (Term.rename f)))
        (action.run parallel c arguments)
        (action.run parallel (c.rename f) (arguments.map (Term.rename f)))) :
    registry.Blind f := by
  intro name parallel c arguments
  unfold execute
  cases haction : registry.get? name with
  | none => exact .throw rfl
  | some action =>
      dsimp only
      rw [List.length_map]
      exact .ite Iff.rfl (.throw rfl) (h name action haction parallel c arguments)

/-- Printing and throwing on purpose show names in texts only. -/
theorem builtins_blind : builtins.Blind f := by
  refine blind_of_actions ?_
  intro name action haction parallel c arguments
  have hknown : action = .throw ∨ action = .print := by
    simp only [builtins, empty, register, get?, Table.get?_insert] at haction
    split at haction
    · exact .inl (Option.some.inj haction).symm
    · split at haction
      · exact .inr (Option.some.inj haction).symm
      · cases haction
  rcases hknown with rfl | rfl
  · cases arguments with
    | nil => exact .pure rfl
    | cons condition rest =>
        refine .bind .get fun host other hhost => ?_
        have hraw : Mirrors ExecutionError.code (Host.Renames f) Eq (Action.rawArgument condition)
            (Action.rawArgument (condition.rename f)) := by
          refine .bind .get fun host other hhost => ?_
          have hvalue := condition.rawValue_rename f host.store
          rw [← show other.store = host.store.rename f from hhost] at hvalue
          generalize condition.rawValue host.store = left at hvalue ⊢
          generalize (condition.rename f).rawValue other.store = right at hvalue ⊢
          cases hvalue with
          | ok hab => exact .pure hab
          | error he => exact .throw he
        refine .bindEq hraw fun v => ?_
        rw [show other.store = host.store.rename f from hhost]
        dsimp only [Store.heap_rename]
        cases host.store.heap.asBool v with
        | error e => exact .throw rfl
        | ok raised =>
            cases raised with
            | false => exact .pure rfl
            | true => exact .throw rfl
  · exact .bindEq (.modifying fun _ _ hhost => hhost) fun _ => .pure rfl

end ActionRegistry

/-! ## Calls -/

/-- Every enumeration of renamed variables has one of the variables with the old names. -/
theorem Enumeration.exists_renames (f : Path → Path) (other : Enumeration) :
    ∃ enumeration : Enumeration, enumeration.Renames f other := by
  have hold : ∀ time vars, ∃ old, List.Perm old vars ∧
      old.map (Variable.rename f) = other.order time (vars.map (Variable.rename f)) := by
    intro time vars
    have hperm := other.perm time (vars.map (Variable.rename f))
    rw [← List.filterMap_eq_map] at hperm
    obtain ⟨old, hold, hmap⟩ := Context.exists_perm_filterMap _ hperm
    rw [List.filterMap_eq_map] at hmap
    exact ⟨old, hold, hmap⟩
  choose order hperm hmap using hold
  exact ⟨⟨order, hperm⟩, fun time vars => (hmap time vars).symm⟩

namespace Execution

/--
The variables of one rule are renamed, while the renaming leaves the other rules,
the call, the caller's context and the world as they are.  Then the call has the
same result or stops with an error of the same kind, and the world and the
context of the caller are the same afterwards, up to names.  In the second call
variables are enumerated in the same orders, up to names, or in any where the first
one does not depend on them.
-/
theorem callRule_of_renamed_rule {env : Environment} {before after : List Rule} {r : Rule}
    (hrules : env.rules = before ++ r :: after) (hf : Function.Injective f)
    (hblind : env.actions.Blind f) (hothers : ∀ other ∈ before ++ after, other.rename f = other)
    {frame : Frame} (hframe : frame.Renames f frame) {call : Literal} (hcall : call.rename f = call)
    (_hworkers : env.WorkersApart frame.world.library) (depth : Nat) {enumeration : Enumeration}
    (horders : env.enumeration.Renames f enumeration ∨
      env.Settled (fun env => callRule env depth call) frame) :
    let first := callRule env depth call frame
    let second := callRule { env with rules := before ++ r.rename f :: after, enumeration } depth
      call frame
    Both Halt.kind Eq first.1 second.1 ∧
      ∃ middle, first.2.Same middle ∧ middle.Renames f second.2 := by
  intro first second
  have hfixed : ∀ {rules : List Rule}, (∀ other ∈ rules, other.rename f = other) →
      rules.map (Rule.rename f) = rules := fun h => (List.map_congr_left h).trans (List.map_id _)
  have henv : ∀ e, (env.enumerating e).rename f enumeration =
      { env with rules := before ++ r.rename f :: after, enumeration } := by
    intro e
    unfold Environment.rename Environment.enumerating
    rw [hrules, List.map_append, List.map_cons,
      hfixed fun other h => hothers other (List.mem_append_left _ h),
      hfixed fun other h => hothers other (List.mem_append_right _ h)]
  have hfollows : ∀ {e : Enumeration}, e.Renames f enumeration →
      Both Halt.kind Eq (callRule (env.enumerating e) depth call frame).1 second.1 ∧
        (callRule (env.enumerating e) depth call frame).2.Renames f second.2 := by
    intro e he
    have hactions : (env.enumerating e).actions.Blind f := hblind
    have hmirror := (callsTo_mirror hf hactions he depth).callRule call frame frame hframe
    rw [henv, hcall] at hmirror
    exact hmirror
  rcases horders with hsame | hsettled
  · obtain ⟨hresult, hafter⟩ := hfollows hsame
    exact ⟨hresult, _, .refl _, hafter⟩
  · -- some order of the first call goes with that of the second, and it makes no difference
    obtain ⟨e, he⟩ := Enumeration.exists_renames f enumeration
    obtain ⟨hresult, hafter⟩ := hfollows he
    obtain ⟨hsame, hframes⟩ := hsettled env.enumeration e
    exact ⟨hsame ▸ hresult, _, hframes, hafter⟩

/--
The head variable of a rule that reads a belief gets another name, and variables come
in the reverse order.
-/
theorem callRule_of_renamed_reader :
    let p (t : Term) : Literal := ⟨⟨.empty, "p"⟩, [t], [], false, false⟩
    let call (t : Term) : Literal := ⟨⟨.empty, "r"⟩, [t], [], false, false⟩
    let x : Variable := .unbound ⟨["X"]⟩
    let reader (y : Variable) : Rule := ⟨call (.var y), [.unify (p (.var y)) none false]⟩
    let beliefs := BeliefGraph.rooted.setHeld BeliefGraph.root ⟨false, "p"⟩ [p (.raw (.int 1))]
    let frame : Frame := ⟨{ beliefs }, ⟨[x]⟩⟩
    let env : Environment := { actions := .builtins, rules := [reader (.unbound ⟨["Y"]⟩)] }
    let other : Environment :=
      { actions := .builtins, rules := [reader (.unbound ⟨["Z"]⟩)], enumeration := .reversed }
    let first := callRule env 1 (call (.var x)) frame
    let second := callRule other 1 (call (.var x)) frame
    first.1 = .ok .truth ∧ Both Halt.kind Eq first.1 second.1 ∧
      first.2.context = ⟨[⟨⟨["X"]⟩, .free (some (.raw (.int 1)))⟩]⟩ ∧
      ∃ middle, first.2.Same middle ∧ middle.Renames (Equiv.swap ⟨["Y"]⟩ ⟨["Z"]⟩) second.2 := by
  intro p call x reader beliefs frame env other first second
  have hbeliefs : beliefs.rename (Equiv.swap ⟨["Y"]⟩ ⟨["Z"]⟩) = beliefs := by
    have hset := BeliefGraph.setHeld_rename (f := Equiv.swap ⟨["Y"]⟩ ⟨["Z"]⟩) BeliefGraph.rooted
      BeliefGraph.root ⟨false, "p"⟩ [p (.raw (.int 1))]
    rw [BeliefGraph.rooted_rename] at hset
    exact hset.symm
  have hframe : frame.Renames (Equiv.swap ⟨["Y"]⟩ ⟨["Z"]⟩) frame :=
    ⟨⟨by simp [Host.Renames, Store.rename, frame], hbeliefs.symm, rfl, rfl, rfl, rfl⟩, rfl⟩
  have hrules : env.rules = [] ++ reader (.unbound ⟨["Y"]⟩) :: [] := rfl
  have hcall : (call (.var x)).rename (Equiv.swap ⟨["Y"]⟩ ⟨["Z"]⟩) = call (.var x) := rfl
  have hlone : ∀ r ∈ env.rules, r.Lone := by
    intro r hr
    cases List.mem_singleton.1 hr
    unfold Rule.Lone
    decide
  have hsettled := settled_run_of_lone ActionRegistry.builtIn_builtins.keepsSlots hlone 1 false
    (.rule (call (.var x))) frame
  have horders : env.enumeration.Renames (Equiv.swap ⟨["Y"]⟩ ⟨["Z"]⟩) .reversed ∨ _ :=
    .inr hsettled
  obtain ⟨hresult, hafter⟩ := callRule_of_renamed_rule hrules (Equiv.injective _)
    ActionRegistry.builtins_blind (fun _ h => absurd h List.not_mem_nil) hframe hcall
    (env.workersApart_of_one_worker rfl _) 1 horders
  exact ⟨rfl, hresult, rfl, hafter⟩

/--
The head variable has the name of a variable inside the argument of the call.
The match takes the two for one and fails; under another name of the head
variable the call succeeds.
-/
theorem callRule_confuses_names :
    let call (t : Term) : Literal := ⟨⟨.empty, "r"⟩, [t], [], false, false⟩
    let g : Literal := ⟨⟨.empty, "g"⟩, [.var (.unbound ⟨["X"]⟩)], [], false, false⟩
    let r : Rule := ⟨call (.var (.unbound ⟨["X"]⟩)), []⟩
    let frame : Frame := ⟨{}, .empty⟩
    (callRule { rules := [r] } 1 (call (.lit g)) frame).1 = .ok .falsity ∧
      (callRule { rules := [r.rename (Equiv.swap ⟨["X"]⟩ ⟨["Y"]⟩)] } 1 (call (.lit g)) frame).1 =
        .ok .truth :=
  ⟨rfl, rfl⟩

end Execution

end Deliberation
