import Deliberation.Proofs.Execution.Conflict
import Deliberation.Proofs.Execution.Shape

/-!
# Relocating variables

The values of relocating variables are written to the variables that they stand
for, one after the other, and a name that several stand for keeps the last value.
A relocating variable of a rule's context comes from an unbound variable of the
call, or it is written in the rule itself; what it stands for never changes.
-/

namespace Deliberation

/-! ## Writing values outward -/

/-- What a bound relocating variable has for the variable that it stands for. -/
def Variable.outward? (x : Variable) : Option (Path × Term) :=
  match x.cell with
  | .relocate target (some t) => some (target, t)
  | _ => none

theorem Variable.target?_of_outward? {x : Variable} {pair : Path × Term}
    (h : x.outward? = some pair) : x.target? = some pair.1 := by
  obtain ⟨name, cell⟩ := x
  cases cell with
  | free value => cases h
  | constant value => cases h
  | mutex i => cases h
  | relocate target value =>
      cases value with
      | none => cases h
      | some t =>
          cases h
          rfl

theorem Variable.outward?_of_target? {x : Variable} {target : Path} (h : x.target? = some target)
    (s : Store) : x.outward? = (x.value? s).map fun t => (target, t) := by
  obtain ⟨name, cell⟩ := x
  cases cell with
  | free value => cases h
  | constant value => cases h
  | mutex i => cases h
  | relocate own value =>
      cases h
      cases value <;> rfl

namespace Context

theorem propagate_apply (vars : List Variable) (scope : Scope) :
    propagate vars scope =
      match bindAll (vars.filterMap Variable.outward?) scope with
      | (.ok (), after) => (.ok (vars.filterMap Variable.outward?).length, after)
      | (.error e, after) => (.error e, after) := by
  induction vars generalizing scope with
  | nil => rfl
  | cons x rest ih =>
      obtain ⟨name, cell⟩ := x
      cases cell with
      | free value => exact ih scope
      | constant value => exact ih scope
      | mutex i => exact ih scope
      | relocate target value =>
          cases value with
          | none => exact ih scope
          | some t =>
              have hfirst : Variable.outward? ⟨name, .relocate target (some t)⟩ =
                  some (target, t) := rfl
              rw [List.filterMap_cons_some hfirst, bindAll_cons, propagate]
              dsimp only
              rw [bind_apply, bind, bind_apply, get_apply]
              dsimp only
              cases bindIn scope target t with
              | error e => rfl
              | ok middle =>
                  dsimp only [set_apply]
                  rw [bind_apply, ih middle]
                  cases bindAll (rest.filterMap Variable.outward?) middle with
                  | mk result after => cases result <;> rfl

/-- The term that is written to a name last. -/
def lastFor (pairs : List (Path × Term)) (name : Path) : Option Term :=
  (pairs.filter (·.1 = name)).getLast?.map Prod.snd

/-- Of the values that go outward a name gets those of the variables that stand for it. -/
theorem filter_outward (vars : List Variable) (name : Path) :
    (vars.filterMap Variable.outward?).filter (·.1 = name) =
      (vars.filter (·.target? = some name)).filterMap Variable.outward? := by
  rw [List.filter_filterMap, List.filterMap_filter]
  congr 1
  funext x
  obtain ⟨own, cell⟩ := x
  cases cell with
  | free value => rfl
  | constant value => rfl
  | mutex i => rfl
  | relocate target value =>
      cases value with
      | none => simp [Variable.outward?]
      | some t => simp [Variable.outward?, Variable.target?, Option.filter]

/-- A name that one variable stands for gets the value of that one, if it has any. -/
theorem filter_outward_of_lone {vars : List Variable} {name : Path} {x : Variable}
    (h : vars.filter (·.target? = some name) = [x]) (s : Store) :
    (vars.filterMap Variable.outward?).filter (·.1 = name) =
      (x.value? s).toList.map (Prod.mk name) := by
  have hmem : x ∈ vars.filter (·.target? = some name) := h ▸ List.mem_singleton_self x
  have htarget : x.target? = some name := of_decide_eq_true (List.mem_filter.1 hmem).2
  have houtward := Variable.outward?_of_target? htarget s
  rw [filter_outward, h, List.filterMap_cons, List.filterMap_nil, houtward]
  cases x.value? s <;> rfl

/-- Of the terms that are written to a name with a slot of its own the last one stays. -/
theorem value?_of_bindAll {s : Store} {c : Context} (howns : c.Owns s)
    {pairs : List (Path × Term)} {after : Scope} (h : bindAll pairs ⟨s, c⟩ = (.ok (), after))
    (name : Path) :
    after.context.value? after.store name = (lastFor pairs name).or (c.value? s name) := by
  induction pairs generalizing s c with
  | nil =>
      cases h
      rfl
  | cons pair rest ih =>
      obtain ⟨bound, t⟩ := pair
      rw [bindAll_cons] at h
      cases hbind : bindIn ⟨s, c⟩ bound t with
      | error e =>
          rw [hbind] at h
          cases h
      | ok middle =>
          rw [hbind] at h
          have hbound := bound_of_bindIn howns hbind
          rw [ih hbound.owns h, hbound.value, lastFor, lastFor, List.filter_cons]
          by_cases hname : bound = name
          · simp only [hname, decide_true, if_true]
            rw [List.getLast?_cons]
            cases (rest.filter (·.1 = name)).getLast? <;> rfl
          · simp only [hname, decide_false, if_false]
            rfl

/-! ## Links to outer variables -/

/-- The relocating variables of a context and what they stand for are related. -/
def Links (P : Path → Path → Prop) (c : Context) : Prop :=
  ∀ name target, c.kind? name = some (.relocate target) → P name target

/-- All that the relocating variables of a context stand for has a property. -/
def Targets (P : Path → Prop) (c : Context) : Prop := c.Links fun _ => P

theorem Scope.Evolves.links {P : Path → Path → Prop} {before after : Scope}
    (h : before.Evolves after) (hbefore : before.context.Links P) : after.context.Links P := by
  intro name target htarget
  refine hbefore name target ?_
  rcases h.kind? name with hkind | ⟨-, hfree⟩
  · exact hkind.symm.trans htarget
  · cases hfree.symm.trans htarget

end Context

theorem Variable.target?_eq_some_iff {x : Variable} {target : Path} :
    x.target? = some target ↔ x.kind = .relocate target := by
  obtain ⟨name, cell⟩ := x
  cases cell <;> simp [target?, kind, Cell.kind]

namespace Context

/-- A variable whose value goes outward is linked to the name that the value is for. -/
theorem Links.of_outward {P : Path → Path → Prop} {c : Context} (h : c.Links P)
    (hdistinct : c.Distinct) {x : Variable} (hx : x ∈ c.vars) {pair : Path × Term}
    (hout : x.outward? = some pair) : P x.name pair.1 := by
  refine h x.name pair.1 ?_
  rw [kind?, hdistinct.get?_of_mem hx, Option.map_some,
    Variable.target?_eq_some_iff.1 (Variable.target?_of_outward? hout)]

/-- The values that go outward are for the names that relocating variables stand for. -/
theorem Targets.of_mem_outward {P : Path → Prop} {c : Context} (h : c.Targets P)
    (hdistinct : c.Distinct) {pair : Path × Term}
    (hpair : pair ∈ c.vars.filterMap Variable.outward?) : P pair.1 := by
  obtain ⟨x, hx, hout⟩ := List.mem_filterMap.1 hpair
  exact Links.of_outward h hdistinct hx hout

end Context

namespace Rule

/-- The outer variables that the rule itself writes to, by relocating variables of its own. -/
def outward (r : Rule) : List Path :=
  (r.head.vars ++ r.body.flatMap Step.vars).filterMap Variable.target?

/-- The outer variables that a call may write to: those of the rule, and those in the call. -/
def Reaches (r : Rule) (call : Literal) (name : Path) : Prop :=
  name ∈ r.outward ∨ name ∈ call.occurrences.map Variable.name

/-- Before its head is bound a rule has the links that are written in it. -/
theorem links_context (r : Rule) (s : Store) :
    (r.context s).1.Links fun name target =>
      ∃ x ∈ r.head.vars ++ r.body.flatMap Step.vars,
        x.name = name ∧ x.target? = some target := by
  intro name target htarget
  have hkind := Context.kind?_ofVariables (r.head.vars ++ r.body.flatMap Step.vars) s name
  change (r.context s).1.kind? name = _ at hkind
  rw [hkind, Option.map_eq_some_iff] at htarget
  obtain ⟨x, hx, hkind⟩ := htarget
  have hname : x.name = name := by simpa using List.find?_some hx
  exact ⟨x, List.mem_of_find?_eq_some hx, hname, Variable.target?_eq_some_iff.2 hkind⟩

/-- A head variable is bound, or it comes to stand for a variable of the call. -/
theorem links_of_bindHead {P : Path → Path → Prop} {scope : Context.Scope} {name : Path} {t : Term}
    (hscope : scope.context.Links P) (ht : ∀ outer, t = .var outer → P name outer.name) :
    (bindHead name t scope).2.context.Links P := by
  have hbind : ∀ u, (Context.bind name u scope).2.context.Links P :=
    fun u => (Context.bind_evolves name u scope).links hscope
  unfold bindHead
  rw [bind_apply, get_apply]
  cases t with
  | raw v => exact hbind _
  | lit l => exact hbind _
  | var outer =>
      dsimp only
      split
      · exact hbind _
      · intro other target htarget
        rw [set_apply] at htarget
        dsimp only at htarget
        rw [Context.kind?_insert] at htarget
        split at htarget
        · next hname =>
            cases htarget
            exact hname ▸ ht outer rfl
        · exact hscope other target htarget

theorem links_of_bindHeads {P : Path → Path → Prop} {bindings : List Binding}
    {scope : Context.Scope} (hscope : scope.context.Links P)
    (hbindings : ∀ binding ∈ bindings, ∀ outer, binding.value = .var outer →
      P binding.name outer.name) :
    (bindHeads bindings scope).2.context.Links P := by
  induction bindings generalizing scope with
  | nil => exact hscope
  | cons binding rest ih =>
      obtain ⟨hfirst, hrest⟩ := List.forall_mem_cons.1 hbindings
      have hbound : (bindHead binding.name binding.value scope).2.context.Links P :=
        links_of_bindHead hscope hfirst
      rw [bindHeads, bind_apply]
      cases hbind : bindHead binding.name binding.value scope with
      | mk result middle =>
          rw [hbind] at hbound
          cases result with
          | ok value => exact ih hbound hrest
          | error e => exact hbound

end Rule

end Deliberation
