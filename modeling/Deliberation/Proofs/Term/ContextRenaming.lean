import Deliberation.Proofs.Term.Renaming

/-!
# Renaming the variables of contexts

A renamed context knows under a renamed name what the context knew under the name
before.  Reading from it, writing to it and replacing variables by what it knows
all follow an injective renaming, up to the names in errors.
-/

namespace Deliberation

namespace Context

/-- Rename the variables of a context. -/
def rename (f : Path → Path) (c : Context) : Context := ⟨c.vars.map (Variable.rename f)⟩

/-- Rename the variables of a scope. -/
def Scope.rename (f : Path → Path) (scope : Scope) : Scope :=
  ⟨scope.store.rename f, scope.context.rename f⟩

section Renaming

variable {f : Path → Path}

theorem size_rename (c : Context) : (c.rename f).size = c.size := List.length_map _

variable (hf : Function.Injective f)

include hf

/-! ## Reading -/

theorem get?_rename (c : Context) (name : Path) :
    (c.rename f).get? (f name) = (c.get? name).map (Variable.rename f) := by
  unfold get? rename
  rw [List.find?_map]
  congr 2
  funext x
  rw [Function.comp_apply, Variable.name_rename]
  exact decide_eq_decide.2 hf.eq_iff

theorem contains_rename (c : Context) (name : Path) :
    (c.rename f).contains (f name) = c.contains name := by
  rw [contains, get?_rename hf, Option.isSome_map, contains]

theorem insert_rename (c : Context) (x : Variable) :
    (c.rename f).insert (x.rename f) = (c.insert x).rename f := by
  unfold insert rename
  rw [Context.mk.injEq]
  induction c.vars with
  | nil => rfl
  | cons y rest ih =>
      rw [List.map_cons, insertInto, insertInto, Variable.name_rename, Variable.name_rename]
      by_cases hname : y.name = x.name
      · rw [if_pos (congrArg f hname), if_pos hname, List.map_cons]
      · rw [if_neg (hf.ne hname), if_neg hname, ih, List.map_cons]

theorem value?_rename (s : Store) (c : Context) (name : Path) :
    (c.rename f).value? (s.rename f) (f name) = (c.value? s name).map (Term.rename f) := by
  rw [value?, get?_rename hf, value?]
  cases c.get? name with
  | none => rfl
  | some x => exact x.value?_rename f s

theorem value_rename (s : Store) (c : Context) (name : Path) :
    Both TermError.code (Becomes (Term.rename f)) (c.value s name)
      ((c.rename f).value (s.rename f) (f name)) := by
  unfold value
  rw [value?_rename hf]
  cases c.value? s name with
  | none => exact .error rfl
  | some t => exact .ok rfl

theorem ofVariables_rename (vars : List Variable) (s : Store) :
    ofVariables (vars.map (Variable.rename f)) (s.rename f) =
      ((ofVariables vars s).1.rename f, (ofVariables vars s).2.rename f) := by
  unfold ofVariables
  have hempty : (empty : Context) = empty.rename f := rfl
  conv_lhs => rw [hempty]
  generalize empty = c
  induction vars generalizing c s with
  | nil => rfl
  | cons x rest ih =>
      rw [List.map_cons, List.foldlM_cons, List.foldlM_cons, Variable.name_rename,
        contains_rename hf]
      by_cases hknown : c.contains x.name
      · rw [if_pos hknown, if_pos hknown]
        exact ih s c
      · rw [if_neg hknown, if_neg hknown]
        have hcopy := x.unboundCopy_rename f s
        change (List.foldlM _ ((c.rename f).insert ((x.rename f).unboundCopy (s.rename f)).1)
          (rest.map (Variable.rename f)) : StateM Store Context)
            ((x.rename f).unboundCopy (s.rename f)).2 = _
        rw [hcopy, insert_rename hf]
        exact ih _ _

/-! ## Writing -/

theorem bindIn_rename (scope : Scope) (name : Path) (t : Term) :
    Both TermError.code (Becomes (Scope.rename f)) (bindIn scope name t)
      (bindIn (scope.rename f) (f name) (t.rename f)) := by
  unfold bindIn
  rw [show (scope.rename f).context = scope.context.rename f from rfl, get?_rename hf]
  cases scope.context.get? name with
  | none =>
      refine .ok ?_
      have hinsert := insert_rename hf scope.context ⟨name, .free (some t)⟩
      rw [Variable.rename, Cell.rename] at hinsert
      exact congrArg (Scope.mk (scope.store.rename f)) hinsert
  | some x =>
      have hset := x.set_rename f scope.store t
      rw [Option.map_some, show (scope.rename f).store = scope.store.rename f from rfl]
      dsimp only
      generalize x.set scope.store t = left at hset ⊢
      generalize (x.rename f).set (scope.store.rename f) (t.rename f) = right at hset ⊢
      cases hset with
      | error he => exact .error he
      | ok hab =>
          cases hab
          exact .ok (congrArg (Scope.mk _) (insert_rename hf scope.context _))

theorem bind_rename (name : Path) (t : Term) :
    Mirrors TermError.code (Becomes (Scope.rename f)) Eq (bind name t)
      (bind (f name) (t.rename f)) := by
  refine .bind .get fun scope renamed hscope => ?_
  cases hscope
  have hbind := bindIn_rename hf scope name t
  generalize bindIn scope name t = left at hbind ⊢
  generalize bindIn (scope.rename f) (f name) (t.rename f) = right at hbind ⊢
  cases hbind with
  | error he => exact .throw he
  | ok hab => exact .set hab

theorem bindAll_rename (pairs : List (Path × Term)) :
    Mirrors TermError.code (Becomes (Scope.rename f)) Eq (bindAll pairs)
      (bindAll (pairs.map fun pair => (f pair.1, pair.2.rename f))) := by
  induction pairs with
  | nil => exact .pure rfl
  | cons pair rest ih => exact .bindEq (bind_rename hf pair.1 pair.2) fun _ => ih

theorem propagate_rename (vars : List Variable) :
    Mirrors TermError.code (Becomes (Scope.rename f)) Eq (propagate vars)
      (propagate (vars.map (Variable.rename f))) := by
  induction vars with
  | nil => exact .pure rfl
  | cons x rest ih =>
      obtain ⟨name, cell⟩ := x
      rw [List.map_cons, Variable.rename]
      cases cell with
      | free value => cases value <;> exact ih
      | constant value => exact ih
      | mutex i => exact ih
      | relocate target value =>
          cases value with
          | none => exact ih
          | some t =>
              refine .bindEq (bind_rename hf target t) fun _ => ?_
              exact .bindEq ih fun written => .pure rfl

/-! ## Replacing variables by what a context knows -/

theorem instantiate_rename (s : Store) (c : Context) (l : Literal) :
    (c.rename f).instantiate (s.rename f) (l.rename f) = (c.instantiate s l).rename f := by
  refine Literal.substitute_rename f fun x _ => ?_
  rw [Variable.name_rename, get?_rename hf]
  cases c.get? x.name with
  | none => rfl
  | some known =>
      dsimp only [Option.map_some]
      rw [Variable.value?_rename]
      cases known.value? s <;> rfl

theorem fill_rename (s : Store) (c : Context) (l : Literal) :
    (c.rename f).fill (s.rename f) (l.rename f) = (c.fill s l).rename f := by
  refine Literal.substitute_rename f fun x _ => ?_
  rw [Variable.name_rename, value?_rename hf]
  cases c.value? s x.name <;> rfl

end Renaming

end Context

/-! ## Replacing with effects -/

section Replacing

variable {f : Path → Path} {g h : Variable → Except TermError Term}

mutual

theorem Term.substituteM_rename
    (hgh : ∀ x, Both TermError.code (Becomes (Term.rename f)) (g x) (h (x.rename f))) :
    ∀ t : Term, Both TermError.code (Becomes (Term.rename f)) (t.substituteM g)
      ((t.rename f).substituteM h)
  | .raw _ => .ok rfl
  | .var x => hgh x
  | .lit l => (Literal.substituteM_rename hgh l).bindBecomes fun _ => .ok rfl

theorem Literal.substituteM_rename
    (hgh : ∀ x, Both TermError.code (Becomes (Term.rename f)) (g x) (h (x.rename f))) :
    ∀ l : Literal, Both TermError.code (Becomes (Literal.rename f)) (l.substituteM g)
      ((l.rename f).substituteM h)
  | ⟨_, arguments, annotations, _, _⟩ =>
      (Term.substituteAllM_rename hgh arguments).bindBecomes fun _ =>
        (Literal.substituteAllM_rename hgh annotations).bindBecomes fun _ => .ok rfl

theorem Term.substituteAllM_rename
    (hgh : ∀ x, Both TermError.code (Becomes (Term.rename f)) (g x) (h (x.rename f))) :
    ∀ ts : List Term, Both TermError.code (Becomes (Term.renameAll f)) (Term.substituteAllM g ts)
      (Term.substituteAllM h (Term.renameAll f ts))
  | [] => .ok rfl
  | t :: rest =>
      (Term.substituteM_rename hgh t).bindBecomes fun _ =>
        (Term.substituteAllM_rename hgh rest).bindBecomes fun _ => .ok rfl

theorem Literal.substituteAllM_rename
    (hgh : ∀ x, Both TermError.code (Becomes (Term.rename f)) (g x) (h (x.rename f))) :
    ∀ ls : List Literal, Both TermError.code (Becomes (Literal.renameAll f))
      (Literal.substituteAllM g ls) (Literal.substituteAllM h (Literal.renameAll f ls))
  | [] => .ok rfl
  | l :: rest =>
      (Literal.substituteM_rename hgh l).bindBecomes fun _ =>
        (Literal.substituteAllM_rename hgh rest).bindBecomes fun _ => .ok rfl

end

end Replacing

namespace Context

section Grounding

variable {f : Path → Path} (hf : Function.Injective f)

include hf

theorem groundVariable_rename (s : Store) (c : Context) (n : Nat) (x : Variable) :
    Both TermError.code (Becomes (Term.rename f)) (groundVariable s c n x)
      (groundVariable (s.rename f) (c.rename f) n (x.rename f)) := by
  induction n generalizing x with
  | zero => exact .error rfl
  | succ n ih =>
      rw [groundVariable, groundVariable, Variable.name_rename, value?_rename hf]
      cases c.value? s x.name with
      | none => exact .error rfl
      | some t => exact Term.substituteM_rename ih t

theorem ground_rename (s : Store) (c : Context) (l : Literal) :
    Both TermError.code (Becomes (Literal.rename f)) (c.ground s l)
      ((c.rename f).ground (s.rename f) (l.rename f)) := by
  rw [ground, ground, size_rename]
  exact Literal.substituteM_rename (groundVariable_rename hf s c _) l

end Grounding

end Context

end Deliberation
