import Deliberation.Proofs.Execution.Shape
import Deliberation.Proofs.Matching.Acyclic
import Deliberation.Proofs.Mirror
import Deliberation.Proofs.Term.Agreement

/-!
# What is read from contexts that agree

A literal that is filled in, a literal that is made ground, an expression and the
arguments of a built-in action read of a context the names in them and no more.
So two contexts that agree on these names give the same.
-/

namespace Deliberation

/-! ## Texts -/

section Texts

variable {heap : Heap} {slot : SlotId → Option String} {f g : Variable → Term}

mutual

/-- The text of a literal depends on the texts of what is put in the places of its variables. -/
theorem Term.renderWith_substitute : ∀ {t : Term},
    (∀ x ∈ t.occurrences, (f x).renderWith heap slot = (g x).renderWith heap slot) →
      (t.substitute f).renderWith heap slot = (t.substitute g).renderWith heap slot
  | .raw _, _ => rfl
  | .var x, h => h x List.mem_cons_self
  | .lit l, h => by
      rw [Term.substitute, Term.substitute, Term.renderWith, Term.renderWith,
        Literal.renderWith_substitute h]

theorem Literal.renderWith_substitute : ∀ {l : Literal},
    (∀ x ∈ l.occurrences, (f x).renderWith heap slot = (g x).renderWith heap slot) →
      (l.substitute f).renderWith heap slot = (l.substitute g).renderWith heap slot
  | ⟨_, arguments, annotations, _, _⟩, h => by
      obtain ⟨harguments, hempty⟩ := Term.renderAllWith_substitute
        fun x (hx : x ∈ Term.occurrencesAll arguments) => h x (List.mem_append_left _ hx)
      obtain ⟨hannotations, hnone⟩ := Literal.renderAllWith_substitute
        fun x (hx : x ∈ Literal.occurrencesAll annotations) => h x (List.mem_append_right _ hx)
      rw [Literal.substitute, Literal.substitute, Literal.renderWith, Literal.renderWith,
        harguments, hempty, hannotations, hnone]

theorem Term.renderAllWith_substitute : ∀ {ts : List Term},
    (∀ x ∈ Term.occurrencesAll ts, (f x).renderWith heap slot = (g x).renderWith heap slot) →
      Term.renderAllWith heap slot (Term.substituteAll f ts) =
          Term.renderAllWith heap slot (Term.substituteAll g ts) ∧
        (Term.substituteAll f ts).isEmpty = (Term.substituteAll g ts).isEmpty
  | [], _ => ⟨rfl, rfl⟩
  | t :: rest, h => by
      obtain ⟨hrest, -⟩ := Term.renderAllWith_substitute
        fun x (hx : x ∈ Term.occurrencesAll rest) => h x (List.mem_append_right _ hx)
      refine ⟨?_, rfl⟩
      rw [Term.substituteAll, Term.substituteAll, Term.renderAllWith, Term.renderAllWith, hrest,
        Term.renderWith_substitute fun x hx => h x (List.mem_append_left _ hx)]

theorem Literal.renderAllWith_substitute : ∀ {ls : List Literal},
    (∀ x ∈ Literal.occurrencesAll ls, (f x).renderWith heap slot = (g x).renderWith heap slot) →
      Literal.renderAllWith heap slot (Literal.substituteAll f ls) =
          Literal.renderAllWith heap slot (Literal.substituteAll g ls) ∧
        (Literal.substituteAll f ls).isEmpty = (Literal.substituteAll g ls).isEmpty
  | [], _ => ⟨rfl, rfl⟩
  | l :: rest, h => by
      obtain ⟨hrest, -⟩ := Literal.renderAllWith_substitute
        fun x (hx : x ∈ Literal.occurrencesAll rest) => h x (List.mem_append_right _ hx)
      refine ⟨?_, rfl⟩
      rw [Literal.substituteAll, Literal.substituteAll, Literal.renderAllWith,
        Literal.renderAllWith, hrest,
        Literal.renderWith_substitute fun x hx => h x (List.mem_append_left _ hx)]

end

end Texts

/-- An unbound variable is written by its name. -/
theorem Variable.renderWith_of_unbound {s : Store} {x : Variable} (h : x.value? s = none)
    (n : Nat) : x.renderWith s.heap (s.renderSlot n) = x.name.text := by
  obtain ⟨name, cell⟩ := x
  cases cell with
  | free value =>
      cases value with
      | none => rfl
      | some t => cases h
  | constant value => cases h
  | mutex i =>
      have hslot : s.renderSlot n i = none := by
        cases n with
        | zero => rfl
        | succ n =>
            have hread : s.readSlot i = none := h
            rw [Store.renderSlot, hread, Option.map_none]
      rw [Variable.renderWith, Cell.renderWith, hslot]
  | relocate target value =>
      cases value with
      | none => rfl
      | some t => cases h

/-! ## Reading a context -/

namespace Context.Scope.Alike

variable {hidden : SlotId → Prop} {names : Path → Prop} {s u : Store} {c d : Context}

theorem fill_eq (h : Scope.Alike hidden names ⟨s, c⟩ ⟨u, d⟩) {l : Literal}
    (hl : ∀ x ∈ l.occurrences, names x.name) : c.fill s l = d.fill u l := by
  refine Literal.substitute_congr fun x hx => ?_
  rw [show c.value? s x.name = d.value? u x.name from h.value x.name (hl x hx)]

/-- Closed values are put in as they are, however deep one would follow them. -/
theorem ground_eq (h : Scope.Alike hidden names ⟨s, c⟩ ⟨u, d⟩)
    (hclosed : ∀ name t, c.value? s name = some t → t.occurrences = []) {l : Literal}
    (hl : ∀ x ∈ l.occurrences, names x.name) : c.ground s l = d.ground u l := by
  refine Literal.substituteM_congr fun x hx => ?_
  have hvalue : c.value? s x.name = d.value? u x.name := h.value x.name (hl x hx)
  rw [groundVariable, groundVariable, ← hvalue]
  cases ht : c.value? s x.name with
  | none => rfl
  | some t =>
      refine Term.substituteM_congr fun y hy => ?_
      rw [hclosed x.name t ht] at hy
      cases hy

theorem evaluate_eq (h : Scope.Alike hidden names ⟨s, c⟩ ⟨u, d⟩)
    (hsealed : Scope.Sealed hidden names ⟨s, c⟩) {e : Expression}
    (he : ∀ name ∈ e.occurrences, names name) :
    Expression.evaluate s c e = Expression.evaluate u d e := by
  have hheap : s.heap = u.heap := h.store.heap
  induction e with
  | constant v => rw [Expression.evaluate, Expression.evaluate, hheap]
  | var name =>
      have hname : names name := he name List.mem_cons_self
      have hvalue : c.value? s name = d.value? u name := h.value name hname
      rw [Expression.evaluate, Expression.evaluate, Context.value, Context.value, ← hvalue]
      cases ht : c.value? s name with
      | none => rfl
      | some t =>
          have hraw : t.rawValue s = t.rawValue u :=
            h.store.rawValue_eq hsealed.store (hsealed.value name t hname ht)
          change (t.rawValue s).mapError ExecutionError.term >>=
              (fun v => pure (s.heap.snapshot v)) =
            (t.rawValue u).mapError ExecutionError.term >>= fun v => pure (u.heap.snapshot v)
          rw [hraw, hheap]
  | unary op operand ih =>
      rw [Expression.evaluate, Expression.evaluate, ih he, hheap]
  | binary op left right ihl ihr =>
      rw [Expression.evaluate, Expression.evaluate,
        ihl fun name hname => he name (List.mem_append_left _ hname),
        ihr fun name hname => he name (List.mem_append_right _ hname), hheap]

theorem evaluateFuzzy_eq (h : Scope.Alike hidden names ⟨s, c⟩ ⟨u, d⟩)
    (hsealed : Scope.Sealed hidden names ⟨s, c⟩) {e : Expression}
    (he : ∀ name ∈ e.occurrences, names name) :
    Expression.evaluateFuzzy s c e = Expression.evaluateFuzzy u d e := by
  have hheap : s.heap = u.heap := h.store.heap
  rw [Expression.evaluateFuzzy, Expression.evaluateFuzzy, h.evaluate_eq hsealed he, hheap]

/-- What stands for a variable in a literal that is filled in for good has the same text. -/
theorem render_instantiate_eq (h : Scope.Alike hidden names ⟨s, c⟩ ⟨s, d⟩) {l : Literal}
    (hl : ∀ x ∈ l.occurrences, names x.name) :
    (c.instantiate s l).render s = (d.instantiate s l).render s := by
  refine Literal.renderWith_substitute fun x hx => ?_
  have hname : names x.name := hl x hx
  have hkind : c.kind? x.name = d.kind? x.name := h.kind x.name hname
  have hvalue : c.value? s x.name = d.value? s x.name := h.value x.name hname
  unfold kind? at hkind
  unfold value? at hvalue
  cases hy : c.get? x.name with
  | none =>
      cases hz : d.get? x.name with
      | none => rfl
      | some z =>
          rw [hy, hz] at hkind
          cases hkind
  | some y =>
      cases hz : d.get? x.name with
      | none =>
          rw [hy, hz] at hkind
          cases hkind
      | some z =>
          rw [hy, hz, Option.bind_some, Option.bind_some] at hvalue
          dsimp only
          rw [← hvalue]
          cases hyvalue : y.value? s with
          | some t => rfl
          | none =>
              -- unbound variables of one name may have different slots
              rw [Option.getD_none, Option.getD_none, Term.renderWith, Term.renderWith,
                Variable.renderWith_of_unbound hyvalue,
                Variable.renderWith_of_unbound (hvalue.symm.trans hyvalue), name_of_get? hy,
                name_of_get? hz]

end Context.Scope.Alike

/-! ## Arguments of actions -/

/-- Two terms stand for the same value and have the same text. -/
structure Term.SameText (s : Store) (t u : Term) : Prop where
  rawValue : t.rawValue s = u.rawValue s
  render : t.render s = u.render s

theorem Term.SameText.refl (s : Store) (t : Term) : t.SameText s t := ⟨rfl, rfl⟩

namespace Step

variable {hidden : SlotId → Prop} {names : Path → Prop} {s : Store} {c d : Context}

theorem resolveArgument_both (h : Context.Scope.Alike hidden names ⟨s, c⟩ ⟨s, d⟩) {t : Term}
    (ht : ∀ x ∈ t.occurrences, names x.name) :
    Both id (Term.SameText s) (resolveArgument s c t) (resolveArgument s d t) := by
  cases t with
  | raw v => exact .ok (.refl s _)
  | var x =>
      have hvalue : c.value? s x.name = d.value? s x.name :=
        h.value x.name (ht x List.mem_cons_self)
      rw [resolveArgument, resolveArgument, Context.value, Context.value, ← hvalue]
      cases c.value? s x.name with
      | none => exact .error rfl
      | some t => exact .ok (.refl s t)
  | lit l =>
      refine .ok ⟨?_, h.render_instantiate_eq ht⟩
      rw [Term.rawValue, Term.rawValue, Term.resolve_lit, Term.resolve_lit]

theorem resolveArguments_both (h : Context.Scope.Alike hidden names ⟨s, c⟩ ⟨s, d⟩)
    {arguments : List Term} (hnames : ∀ x ∈ Term.occurrencesAll arguments, names x.name) :
    Both id (List.Forall₂ (Term.SameText s)) (resolveArguments s c arguments)
      (resolveArguments s d arguments) := by
  induction arguments with
  | nil => exact .ok .nil
  | cons t rest ih =>
      have hfirst := resolveArgument_both h fun x hx => hnames x (List.mem_append_left _ hx)
      have hrest := ih fun x hx => hnames x (List.mem_append_right _ hx)
      exact hfirst.bind fun a b hab => hrest.bind fun as bs habs => .ok (.cons hab habs)

end Step

namespace Action

theorem printedText_eq {s : Store} {t u : Term} (h : t.SameText s u) :
    printedText s t = printedText s u := by
  unfold printedText
  rw [h.rawValue, h.render]

theorem thrownMessage_eq {s : Store} {ts us : List Term}
    (h : List.Forall₂ (Term.SameText s) ts us) : thrownMessage s ts = thrownMessage s us := by
  cases h with
  | nil => rfl
  | cons hfirst hrest =>
      dsimp only [thrownMessage]
      rw [hfirst.rawValue, hfirst.render]

theorem print_eq {host : Host} {ts us : List Term}
    (h : List.Forall₂ (Term.SameText host.store) ts us) (parallel : Bool) (c d : Context) :
    print.run parallel c ts host = print.run parallel d us host := by
  have htexts : ts.map (printedText host.store) = us.map (printedText host.store) := by
    induction h with
    | nil => rfl
    | cons hfirst hrest ih => rw [List.map_cons, List.map_cons, printedText_eq hfirst, ih]
  simp only [print, bind_apply, modify_apply, htexts]

theorem throw_eq {host : Host} {ts us : List Term}
    (h : List.Forall₂ (Term.SameText host.store) ts us) (parallel : Bool) (c d : Context) :
    throw.run parallel c ts host = throw.run parallel d us host := by
  cases h with
  | nil => rfl
  | cons hfirst hrest =>
      simp only [throw, rawArgument, bind_apply, get_apply, hfirst.rawValue, thrownMessage_eq hrest]

end Action

/-- A built-in action sees of its arguments their values and texts, and nothing of the context. -/
theorem ActionRegistry.BuiltIn.execute_eq {registry : ActionRegistry} (hregistry : registry.BuiltIn)
    {host : Host} {ts us : List Term} (h : List.Forall₂ (Term.SameText host.store) ts us)
    (name : String) (parallel : Bool) (c d : Context) :
    registry.execute name parallel c ts host = registry.execute name parallel d us host := by
  unfold execute
  cases haction : registry.get? name with
  | none => rfl
  | some action =>
      dsimp only
      rw [h.length_eq]
      split
      · rfl
      · rcases hregistry name action haction with rfl | rfl
        · exact Action.print_eq h parallel c d
        · exact Action.throw_eq h parallel c d

end Deliberation
