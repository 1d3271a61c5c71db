import Deliberation.Proofs.Execution.Outputs
import Deliberation.Proofs.Term.Orders

/-!
# Outputs in any order

A rule that answers has the values of its relocating variables written outward.
The variables of its context are a map, so they may come in any order.  The order
shows in the caller when two of them stand for one variable of the caller and have
different values, as after a call that has one variable twice.
-/

namespace Deliberation

namespace Context

/-! ## Orders of the variables -/

/-- Every order of what is picked from a list comes from an order of the list. -/
theorem exists_perm_filterMap {α β : Type} (f : α → Option β) {picked : List β} {items : List α}
    (h : picked.Perm (items.filterMap f)) :
    ∃ others, List.Perm others items ∧ others.filterMap f = picked := by
  induction picked generalizing items with
  | nil => exact ⟨items, .refl items, h.symm.eq_nil⟩
  | cons b rest ih =>
      obtain ⟨a, ha, hb⟩ := List.mem_filterMap.1 (h.subset List.mem_cons_self)
      obtain ⟨behind, hbehind⟩ := exists_perm_cons ha
      have hitems := h.trans (hbehind.filterMap f).symm
      rw [List.filterMap_cons_some hb, List.perm_cons] at hitems
      obtain ⟨others, hothers, rfl⟩ := ih hitems
      exact ⟨a :: others, (hothers.cons a).trans hbehind, List.filterMap_cons_some hb⟩

/-- What the bound relocating variables of a context have for the variables that they stand for. -/
def outward (c : Context) : List (Path × Term) := c.vars.filterMap Variable.outward?

/-- Writing the values of variables outward has one outcome, in whatever order they come. -/
def SameInAnyOrder (vars : List Variable) (scope : Scope) : Prop :=
  ∀ others, others.Perm vars →
    (propagate others scope).1 = (propagate vars scope).1 ∧
      (propagate others scope).2.Same (propagate vars scope).2

section Orders

variable {own : Context} {scope : Scope}

/-- As many values are counted in any order, so the outcome of writing them decides. -/
theorem propagate_same_iff {others vars : List Variable} (h : others.Perm vars) :
    (propagate others scope).1 = (propagate vars scope).1 ∧
        (propagate others scope).2.Same (propagate vars scope).2 ↔
      scope.SameOutcome (others.filterMap Variable.outward?)
        (vars.filterMap Variable.outward?) := by
  rw [propagate_apply, propagate_apply, (h.filterMap Variable.outward?).length_eq,
    Scope.SameOutcome]
  cases bindAll (others.filterMap Variable.outward?) scope with
  | mk result after =>
      cases bindAll (vars.filterMap Variable.outward?) scope with
      | mk result' after' => cases result <;> cases result' <;> simp

theorem sameInAnyOrder_iff_sameOutcome :
    SameInAnyOrder own.vars scope ↔
      ∀ pairs, pairs.Perm own.outward → scope.SameOutcome pairs own.outward := by
  constructor
  · intro h pairs hpairs
    obtain ⟨others, hothers, rfl⟩ := exists_perm_filterMap Variable.outward? hpairs
    exact (propagate_same_iff hothers).1 (h others hothers)
  · intro h others hothers
    exact (propagate_same_iff hothers).2 (h _ (hothers.filterMap Variable.outward?))

/-- The order does not matter exactly if the values that go outward are compatible or idle. -/
theorem sameInAnyOrder_iff (hinside : scope.context.Inside scope.store) :
    SameInAnyOrder own.vars scope ↔
      scope.Compatible own.outward ∨ scope.Idle own.outward :=
  sameInAnyOrder_iff_sameOutcome.trans (Scope.sameOutcome_iff hinside)

/-! ## Relocating variables that stand apart -/

/-- Relocating variables stand for different places of an outer context, and for no constant. -/
structure Apart (outer c : Context) : Prop where
  unfixed : c.Targets fun target => outer.fixes target = false
  apart : ∀ first second target target', c.kind? first = some (.relocate target) →
    c.kind? second = some (.relocate target') → outer.Meets target target' → first = second

theorem Apart.evolves {outer : Context} {before after : Scope} (h : outer.Apart before.context)
    (hevolves : before.Evolves after) : outer.Apart after.context where
  unfixed := hevolves.links h.unfixed
  apart first second target target' hfirst hsecond := by
    have hkept : ∀ name kept, after.context.kind? name = some (.relocate kept) →
        before.context.kind? name = some (.relocate kept) := by
      intro name kept hkept
      rcases hevolves.kind? name with hkind | ⟨-, hfree⟩
      · exact hkind.symm.trans hkept
      · cases hfree.symm.trans hkept
    exact h.apart first second target target' (hkept _ _ hfirst) (hkept _ _ hsecond)

theorem apart_of_vars {outer c : Context}
    (hunfixed : ∀ x ∈ c.vars, ∀ target, x.target? = some target → outer.fixes target = false)
    (hapart : ∀ x ∈ c.vars, ∀ y ∈ c.vars, ∀ target target', x.target? = some target →
      y.target? = some target' → outer.Meets target target' → x.name = y.name) :
    outer.Apart c := by
  have hmem : ∀ name target, c.kind? name = some (.relocate target) →
      ∃ x ∈ c.vars, x.name = name ∧ x.target? = some target := by
    intro name target hkind
    obtain ⟨x, hx, hkind⟩ := Option.map_eq_some_iff.1 hkind
    exact ⟨x, List.mem_of_find?_eq_some hx, name_of_get? hx, Variable.target?_eq_some_iff.2 hkind⟩
  constructor
  · intro name target hkind
    obtain ⟨x, hx, -, htarget⟩ := hmem name target hkind
    exact hunfixed x hx target htarget
  · intro first second target target' hfirst hsecond hmeets
    obtain ⟨x, hx, rfl, hxt⟩ := hmem first target hfirst
    obtain ⟨y, hy, rfl, hyt⟩ := hmem second target' hsecond
    exact hapart x hx y hy target target' hxt hyt hmeets

/-- Variables that stand apart have compatible values, whatever these are. -/
theorem Apart.compatible (h : scope.context.Apart own) (hdistinct : own.Distinct) :
    scope.Compatible own.outward := by
  have hkind : ∀ x ∈ own.vars, ∀ pair, x.outward? = some pair →
      own.kind? x.name = some (.relocate pair.1) := by
    intro x hx pair hpair
    rw [kind?, hdistinct.get?_of_mem hx, Option.map_some,
      Variable.target?_eq_some_iff.1 (Variable.target?_of_outward? hpair)]
  constructor
  · exact fun pair hpair => h.unfixed.of_mem_outward hdistinct hpair
  · intro p hp q hq hmeets
    obtain ⟨x, hx, hxp⟩ := List.mem_filterMap.1 hp
    obtain ⟨y, hy, hyq⟩ := List.mem_filterMap.1 hq
    have hname := h.apart _ _ _ _ (hkind x hx p hxp) (hkind y hy q hyq) hmeets
    have hx' := hdistinct.get?_of_mem hx
    rw [hname, hdistinct.get?_of_mem hy] at hx'
    cases hx'
    cases hxp.symm.trans hyq
    rfl

end Orders

end Context

namespace Execution

/-! ## The values of a rule -/

/--
When a rule has been tried, its values go outward with one outcome in every order
exactly if they are compatible or idle: no variable of the caller that they are for
is a constant and no two different values are for one place, or all such constants
refuse with one message and nothing else would change anything.  They are compatible
whatever the body does if the relocating variables stand apart once the head is bound.
-/
theorem outputs_in_any_order {env : Environment} {depth : Nat} {call : Literal} {r : Rule}
    {w after : World} {result : Fuzzy Bool} {own outer : Context}
    (hinside : outer.Inside after.store)
    (h : tryRule env (callsTo env depth) call r w = (.ok (some (result, own)), after)) :
    let scope : Context.Scope := ⟨after.store, outer⟩
    (Context.SameInAnyOrder own.vars scope ↔
      scope.Compatible own.outward ∨ scope.Idle own.outward) ∧
    ∃ b heads, Match.bind w.store r.head call = some b ∧
      Rule.bindHeads b.bindings ⟨(r.context w.store).2, (r.context w.store).1⟩ =
        (.ok (), heads) ∧
      (env.actions.KeepsSlots → outer.Apart heads.context →
        Context.SameInAnyOrder own.vars scope) := by
  intro scope
  have hiff : Context.SameInAnyOrder own.vars scope ↔ _ := Context.sameInAnyOrder_iff hinside
  obtain ⟨b, heads, count, hbind, hheads, hbody⟩ := match_of_tryRule h
  refine ⟨hiff, b, heads, hbind, hheads, fun hactions hapart => hiff.2 (Or.inl ?_)⟩
  obtain ⟨hdistinct, hevolves⟩ :=
    evolves_of_tryRule hactions (callsTo_confined hactions depth) hheads hbody
  exact (hapart.evolves hevolves).compatible hdistinct

/-- A rule that gives its two variables different values. -/
def numbering : Rule :=
  ⟨⟨⟨.empty, "p"⟩, [.var (.unbound ⟨["A"]⟩), .var (.unbound ⟨["B"]⟩)], [], false, false⟩,
    [.assign ⟨["A"]⟩ (.constant (.int 1)), .assign ⟨["B"]⟩ (.constant (.int 2))]⟩

/-- A call of that rule with two variables. -/
def numberingCall (first second : String) : Literal :=
  ⟨⟨.empty, "p"⟩, [.var (.unbound ⟨[first]⟩), .var (.unbound ⟨[second]⟩)], [], false, false⟩

/-- The context of the rule after the call. -/
def numbered (first second : String) : Context :=
  ⟨[⟨⟨["A"]⟩, .relocate ⟨[first]⟩ (some (.raw (.int 1)))⟩,
    ⟨⟨["B"]⟩, .relocate ⟨[second]⟩ (some (.raw (.int 2)))⟩]⟩

/-- Two variables of the caller get their values in any order. -/
theorem outputs_in_any_order_pair :
    tryRule {} (callsTo {} 0) (numberingCall "Y" "Z") numbering {} =
      (.ok (some (.truth, numbered "Y" "Z")), {}) ∧
    Context.SameInAnyOrder (numbered "Y" "Z").vars ⟨{}, .empty⟩ := by
  have htry : tryRule {} (callsTo {} 0) (numberingCall "Y" "Z") numbering {} =
      (.ok (some (.truth, numbered "Y" "Z")), {}) := rfl
  have hinside : Context.empty.Inside (World.store {}) := by
    rintro name i ⟨⟩
  obtain ⟨-, b, heads, hbind, hheads, hsame⟩ := outputs_in_any_order hinside htry
  cases hbind
  cases hheads
  refine ⟨htry, hsame (fun _ _ _ _ _ => rfl) (Context.apart_of_vars ?_ ?_)⟩
  · intro x _ target _
    rfl
  · -- the empty context has no slots, so only equal names meet
    rintro x hx y hy target target' hxt hyt (rfl | ⟨i, hi, -⟩)
    · rcases List.mem_pair.1 hx with rfl | rfl <;> rcases List.mem_pair.1 hy with rfl | rfl
      · rfl
      · exact absurd (hxt.trans hyt.symm) (by decide)
      · exact absurd (hxt.trans hyt.symm) (by decide)
      · rfl
    · cases hi

/-- One variable of the caller that two variables of the rule stand for gets the last value. -/
theorem outputs_depend_on_order :
    let y : Path := ⟨["Y"]⟩
    let vars := (numbered "Y" "Y").vars
    let written (vars : List Variable) := (Context.propagate vars ⟨{}, .empty⟩).2
    tryRule {} (callsTo {} 0) (numberingCall "Y" "Y") numbering {} =
      (.ok (some (.truth, numbered "Y" "Y")), {}) ∧
    vars.reverse.Perm vars ∧
    (written vars).context.value? {} y = some (.raw (.int 2)) ∧
    (written vars.reverse).context.value? {} y = some (.raw (.int 1)) ∧
    ¬ Context.SameInAnyOrder vars ⟨{}, .empty⟩ := by
  intro y vars written
  refine ⟨rfl, vars.reverse_perm, rfl, rfl, fun h => ?_⟩
  have hlookup := (h vars.reverse vars.reverse_perm).2.lookup y
  have hvalues := congrArg (Option.bind · fun x => x.value? {}) hlookup
  cases hvalues

end Execution

end Deliberation
