import Deliberation.Proofs.Matching.Renaming

/-!
# Literals without the bindings of their variables

The literals of plans are templates, whose variables stand for names and kinds.
What the cells of such variables hold, or which slots they have, is read neither
when a context is made for them, nor when they are replaced by what a context
knows, nor when they are matched.  Only where a context leaves a variable as it
is, its cell is passed on.
-/

namespace Deliberation

/-- A cell of the same kind with nothing bound; a constant keeps its value. -/
def Cell.cleared : Cell → Cell
  | .free _ => .free none
  | .constant t => .constant t
  | .mutex _ => .mutex 0
  | .relocate target _ => .relocate target none

/-- A variable of the same name and kind with nothing bound. -/
def Variable.cleared (x : Variable) : Variable := ⟨x.name, x.cell.cleared⟩

/-- Clear the variables of a term. -/
def Term.cleared (t : Term) : Term := t.substitute fun x => .var x.cleared

/-- Clear the variables of a literal. -/
def Literal.cleared (l : Literal) : Literal := l.substitute fun x => .var x.cleared

@[simp] theorem Variable.name_cleared (x : Variable) : x.cleared.name = x.name := rfl

@[simp] theorem Variable.cleared_cleared (x : Variable) : x.cleared.cleared = x.cleared := by
  obtain ⟨name, cell⟩ := x
  cases cell <;> rfl

@[simp] theorem Variable.map_cleared_cleared (vars : List Variable) :
    (vars.map cleared).map cleared = vars.map cleared := by
  rw [List.map_map]
  exact List.map_congr_left fun x _ => x.cleared_cleared

theorem Variable.unboundCopy_cleared (x : Variable) : x.cleared.unboundCopy = x.unboundCopy := by
  obtain ⟨name, cell⟩ := x
  cases cell <;> rfl

theorem Variable.distinct_map_cleared (vars : List Variable) :
    distinct (vars.map cleared) = (distinct vars).map cleared :=
  distinct_map Function.injective_id name_cleared vars

theorem Literal.occurrences_cleared (l : Literal) :
    l.cleared.occurrences = l.occurrences.map Variable.cleared := by
  rw [Literal.cleared, Literal.occurrences_substitute, List.map_eq_flatMap]
  rfl

theorem Term.occurrencesAll_cleared (ts : List Term) :
    Term.occurrencesAll (ts.map Term.cleared) = (Term.occurrencesAll ts).map Variable.cleared := by
  have hterm : ∀ t : Term, t.cleared.occurrences = t.occurrences.map Variable.cleared := by
    intro t
    cases t with
    | raw v => rfl
    | var x => rfl
    | lit l => exact l.occurrences_cleared
  rw [Term.occurrencesAll_eq, Term.occurrencesAll_eq, List.map_flatMap, List.flatMap_map]
  exact congrArg (List.flatMap · ts) (funext hterm)

theorem Literal.vars_cleared (l : Literal) : l.cleared.vars = l.vars.map Variable.cleared := by
  rw [Literal.vars, Literal.occurrences_cleared, Variable.distinct_map_cleared, Literal.vars]

/-! ## Replacing with effects -/

section Replacing

variable {m : Type → Type} [Monad m] (g : Variable → Variable) (h : Variable → m Term)

mutual

/-- Replacing variables that were exchanged for others. -/
theorem Term.substituteM_substitute_var :
    ∀ t : Term, (t.substitute fun x => .var (g x)).substituteM h = t.substituteM fun x => h (g x)
  | .raw _ => rfl
  | .var _ => rfl
  | .lit l => congrArg (· >>= fun l => pure (Term.lit l)) (Literal.substituteM_substitute_var l)

theorem Literal.substituteM_substitute_var :
    ∀ l : Literal,
      (l.substitute fun x => .var (g x)).substituteM h = l.substituteM fun x => h (g x)
  | ⟨functor, arguments, annotations, negated, marked⟩ =>
      congrArg₂
        (fun first second => first >>= fun arguments => second >>= fun annotations =>
          pure (Literal.mk functor arguments annotations negated marked))
        (Term.substituteAllM_substitute_var arguments)
        (Literal.substituteAllM_substitute_var annotations)

theorem Term.substituteAllM_substitute_var :
    ∀ ts : List Term, Term.substituteAllM h (Term.substituteAll (fun x => .var (g x)) ts) =
      Term.substituteAllM (fun x => h (g x)) ts
  | [] => rfl
  | t :: rest =>
      congrArg₂ (fun first second => first >>= fun t => second >>= fun rest => pure (t :: rest))
        (Term.substituteM_substitute_var t) (Term.substituteAllM_substitute_var rest)

theorem Literal.substituteAllM_substitute_var :
    ∀ ls : List Literal, Literal.substituteAllM h (Literal.substituteAll (fun x => .var (g x)) ls) =
      Literal.substituteAllM (fun x => h (g x)) ls
  | [] => rfl
  | l :: rest =>
      congrArg₂ (fun first second => first >>= fun l => second >>= fun rest => pure (l :: rest))
        (Literal.substituteM_substitute_var l) (Literal.substituteAllM_substitute_var rest)

end

end Replacing

/-! ## Contexts -/

namespace Context

/-- A context made for variables depends on their names and kinds alone. -/
theorem ofVariables_of_cleared {vars others : List Variable}
    (h : vars.map Variable.cleared = others.map Variable.cleared) :
    ofVariables vars = ofVariables others := by
  have hfold : ∀ (vars : List Variable) (c : Context),
      (vars.map Variable.cleared).foldlM
          (fun c x => if c.contains x.name then pure c else c.insert <$> x.unboundCopy) c =
        (vars.foldlM (fun c x => if c.contains x.name then pure c else c.insert <$> x.unboundCopy)
          c : StateM Store Context) := by
    intro vars c
    rw [List.foldlM_map]
    simp only [Variable.name_cleared, Variable.unboundCopy_cleared]
  unfold ofVariables
  rw [← hfold vars, ← hfold others, h]

variable (s : Store) (c : Context) (l : Literal)

theorem instantiate_cleared : c.instantiate s l.cleared = c.instantiate s l :=
  Literal.substitute_substitute _ _ l

theorem ground_cleared : c.ground s l.cleared = c.ground s l := by
  have hvariable : ∀ n, (fun x : Variable => groundVariable s c n x.cleared) =
      groundVariable s c n := by
    intro n
    funext x
    cases n <;> rfl
  rw [ground, Literal.cleared, Literal.substituteM_substitute_var, hvariable, ground]

/-- Filling leaves unbound variables with their cells, so the results agree when cleared. -/
theorem cleared_fill_cleared : (c.fill s l.cleared).cleared = (c.fill s l).cleared := by
  simp only [fill, Literal.cleared, Literal.substitute_substitute, Term.substitute]
  refine Literal.substitute_congr fun x _ => ?_
  rw [Variable.name_cleared]
  cases c.value? s x.name with
  | none => exact congrArg Term.var x.cleared_cleared
  | some t => rfl

end Context

/-! ## Matching -/

theorem Match.bind_cleared (s : Store) (query candidate : Literal) :
    bind s query.cleared candidate = bind s query candidate := by
  have hbind := bind_rename Function.injective_id Variable.name_cleared s query candidate
  rw [Store.rename_id, Literal.rename_id] at hbind
  rw [Literal.cleared, hbind, funext BindingSet.rename_id]
  exact Option.map_id_apply

namespace Unifier

theorem candidates_cleared (s : Store) (g : BeliefGraph) (v : ViewId) (query : Literal)
    (required : Nat) :
    candidates s g v query.cleared required = candidates s g v query required := by
  have hsets := candidates_rename Function.injective_id Variable.name_cleared s g v query required
  rw [Store.rename_id, BeliefGraph.rename_id, funext BindingSet.rename_id] at hsets
  exact hsets.trans (List.map_id _)

/-- Unification reads the names of the variables of a query and nothing else of them. -/
theorem unify_cleared (u : Unifier) (g : BeliefGraph) (v : ViewId) (query : Literal) (c : Context)
    (guard : Option Guard) (parallel : Bool) :
    u.unify g v query.cleared c guard parallel = u.unify g v query c guard parallel := by
  have hsets : ∀ s : Store,
      candidates s g v (c.fill s query.cleared) (c.fill s query.cleared).vars.length =
        candidates s g v (c.fill s query) (c.fill s query).vars.length := by
    intro s
    -- The two filled queries differ, but not any more when both are cleared.
    have hfill := c.cleared_fill_cleared s query
    have hlength := congrArg (fun l : Literal => l.vars.length) hfill
    simp only [Literal.vars_cleared, List.length_map] at hlength
    rw [← candidates_cleared, hfill, candidates_cleared, hlength]
  unfold unify
  simp only [hsets]

end Unifier

end Deliberation
