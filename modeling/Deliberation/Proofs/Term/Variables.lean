import Deliberation.Term.Context
import Deliberation.Term.Identity
import Mathlib.Data.List.Forall2

/-!
# The variables of terms

Which variables a term shows: all of them, or those that are reached through
arguments alone, which are the ones that tell literals apart.  Replacing
variables, resolving and comparing are described by them.
-/

namespace Deliberation

/-! ## Induction over nested literals -/

section Induction

variable {motive : Literal → Prop}

mutual

theorem Literal.inductionAux
    (step : ∀ l : Literal, (∀ m, Term.lit m ∈ l.arguments → motive m) →
      (∀ a ∈ l.annotations, motive a) → motive l) : ∀ l : Literal, motive l
  | ⟨_, arguments, annotations, _, _⟩ =>
      step _ (Literal.inductionArguments step arguments)
        (Literal.inductionAnnotations step annotations)

theorem Literal.inductionArguments
    (step : ∀ l : Literal, (∀ m, Term.lit m ∈ l.arguments → motive m) →
      (∀ a ∈ l.annotations, motive a) → motive l) :
    ∀ ts : List Term, ∀ m, Term.lit m ∈ ts → motive m
  | [], _, hm => absurd hm List.not_mem_nil
  | .raw _ :: rest, m, hm => Literal.inductionArguments step rest m (by simpa using hm)
  | .var _ :: rest, m, hm => Literal.inductionArguments step rest m (by simpa using hm)
  | .lit l :: rest, m, hm => by
      rcases List.mem_cons.1 hm with hfirst | hrest
      · rw [Term.lit.inj hfirst]
        exact Literal.inductionAux step l
      · exact Literal.inductionArguments step rest m hrest

theorem Literal.inductionAnnotations
    (step : ∀ l : Literal, (∀ m, Term.lit m ∈ l.arguments → motive m) →
      (∀ a ∈ l.annotations, motive a) → motive l) :
    ∀ ls : List Literal, ∀ a ∈ ls, motive a
  | [], _, ha => absurd ha List.not_mem_nil
  | l :: rest, a, ha => by
      rcases List.mem_cons.1 ha with hfirst | hrest
      · rw [hfirst]
        exact Literal.inductionAux step l
      · exact Literal.inductionAnnotations step rest a hrest

end

/-- What holds of a literal as soon as it holds of the literals in it holds of all literals. -/
@[elab_as_elim]
theorem Literal.induction
    (step : ∀ l : Literal, (∀ m, Term.lit m ∈ l.arguments → motive m) →
      (∀ a ∈ l.annotations, motive a) → motive l) (l : Literal) : motive l :=
  Literal.inductionAux step l

end Induction

/-! ## Lists of parts -/

theorem Term.occurrencesAll_eq (ts : List Term) :
    Term.occurrencesAll ts = ts.flatMap Term.occurrences := by
  induction ts with
  | nil => rfl
  | cons t rest ih => rw [Term.occurrencesAll, ih, List.flatMap_cons]

theorem Literal.occurrencesAll_eq (ls : List Literal) :
    Literal.occurrencesAll ls = ls.flatMap Literal.occurrences := by
  induction ls with
  | nil => rfl
  | cons l rest ih => rw [Literal.occurrencesAll, ih, List.flatMap_cons]

theorem Literal.occurrences_eq (l : Literal) :
    l.occurrences =
      l.arguments.flatMap Term.occurrences ++ l.annotations.flatMap Literal.occurrences := by
  obtain ⟨functor, arguments, annotations, negated, marked⟩ := l
  rw [Literal.occurrences, Term.occurrencesAll_eq, Literal.occurrencesAll_eq]

theorem Term.substituteAll_eq (f : Variable → Term) (ts : List Term) :
    Term.substituteAll f ts = ts.map (Term.substitute f) := by
  induction ts with
  | nil => rfl
  | cons t rest ih => rw [Term.substituteAll, ih, List.map_cons]

theorem Literal.substituteAll_eq (f : Variable → Term) (ls : List Literal) :
    Literal.substituteAll f ls = ls.map (Literal.substitute f) := by
  induction ls with
  | nil => rfl
  | cons l rest ih => rw [Literal.substituteAll, ih, List.map_cons]

theorem Literal.substitute_eq (f : Variable → Term) (l : Literal) :
    l.substitute f =
      ⟨l.functor, l.arguments.map (Term.substitute f), l.annotations.map (Literal.substitute f),
        l.negated, l.marked⟩ := by
  obtain ⟨functor, arguments, annotations, negated, marked⟩ := l
  rw [Literal.substitute, Term.substituteAll_eq, Literal.substituteAll_eq]

theorem Term.identityAll_eq (ts : List Term) : Term.identityAll ts = ts.map Term.identity := by
  induction ts with
  | nil => rfl
  | cons t rest ih => rw [Term.identityAll, ih, List.map_cons]

theorem Term.equalAll_iff_forall₂ (heap : Heap) (ts us : List Term) :
    Term.equalAll heap ts us = true ↔ List.Forall₂ (fun t u => t.equal heap u = true) ts us := by
  induction ts generalizing us with
  | nil =>
      cases us with
      | nil => simp [Term.equalAll]
      | cons u us => simp [Term.equalAll, List.forall₂_nil_left_iff]
  | cons t rest ih =>
      cases us with
      | nil => simp [Term.equalAll, List.forall₂_nil_right_iff]
      | cons u us => simp [Term.equalAll, ih]

/-! ## Variables in arguments -/

/-- The variable that a term itself is. -/
def Term.direct : Term → List Variable
  | .var x => [x]
  | _ => []

/-- The variables that are themselves arguments of a literal or of one of its annotations. -/
def Literal.directVars (l : Literal) : List Variable :=
  l.arguments.flatMap Term.direct ++
    l.annotations.flatMap fun a => a.arguments.flatMap Term.direct

mutual

/-- The variables that are reached through arguments alone. -/
def Term.argumentVars : Term → List Variable
  | .raw _ => []
  | .var x => [x]
  | .lit l => l.argumentVars

/-- The variables in the arguments of a literal, annotations left out at every depth. -/
def Literal.argumentVars : Literal → List Variable
  | ⟨_, arguments, _, _, _⟩ => Term.argumentVarsAll arguments

def Term.argumentVarsAll : List Term → List Variable
  | [] => []
  | t :: rest => t.argumentVars ++ Term.argumentVarsAll rest

end

theorem Term.argumentVarsAll_eq (ts : List Term) :
    Term.argumentVarsAll ts = ts.flatMap Term.argumentVars := by
  induction ts with
  | nil => rfl
  | cons t rest ih => rw [Term.argumentVarsAll, ih, List.flatMap_cons]

theorem Literal.argumentVars_eq (l : Literal) :
    l.argumentVars = l.arguments.flatMap Term.argumentVars := by
  obtain ⟨functor, arguments, annotations, negated, marked⟩ := l
  rw [Literal.argumentVars, Term.argumentVarsAll_eq]

theorem Literal.argumentVars_subset (l : Literal) : l.argumentVars ⊆ l.occurrences := by
  induction l using Literal.induction with
  | step l harguments hannotations =>
      rw [Literal.argumentVars_eq, Literal.occurrences_eq]
      intro x hx
      obtain ⟨t, ht, hx⟩ := List.mem_flatMap.1 hx
      refine List.mem_append_left _ (List.mem_flatMap.2 ⟨t, ht, ?_⟩)
      cases t with
      | raw v => exact hx
      | var y => exact hx
      | lit m => exact harguments m ht hx

theorem Term.direct_subset (t : Term) : t.direct ⊆ t.argumentVars := by
  cases t with
  | raw v => exact List.Subset.refl _
  | var x => exact List.Subset.refl _
  | lit l => exact List.nil_subset _

/-- A variable that is an argument itself occurs in the literal. -/
theorem Literal.directVars_subset (l : Literal) : l.directVars ⊆ l.occurrences := by
  have harguments : ∀ m : Literal, m.arguments.flatMap Term.direct ⊆ m.occurrences := by
    intro m x hx
    obtain ⟨t, ht, hx⟩ := List.mem_flatMap.1 hx
    refine m.argumentVars_subset ?_
    rw [Literal.argumentVars_eq]
    exact List.mem_flatMap.2 ⟨t, ht, t.direct_subset hx⟩
  intro x hx
  rcases List.mem_append.1 hx with hx | hx
  · exact harguments l hx
  · obtain ⟨a, ha, hx⟩ := List.mem_flatMap.1 hx
    rw [Literal.occurrences_eq]
    exact List.mem_append_right _ (List.mem_flatMap.2 ⟨a, ha, harguments a hx⟩)

mutual

/-- The names of the variables in a key. -/
def IdentityKey.names : IdentityKey → List Path
  | .value _ => []
  | .var name => [name]
  | .literal _ _ _ arguments => IdentityKey.namesAll arguments

def IdentityKey.namesAll : List IdentityKey → List Path
  | [] => []
  | key :: rest => key.names ++ IdentityKey.namesAll rest

end

mutual

theorem Term.names_identity : ∀ t : Term, t.identity.names = t.argumentVars.map Variable.name
  | .raw _ => rfl
  | .var _ => rfl
  | .lit l => Literal.names_identity l

theorem Literal.names_identity :
    ∀ l : Literal, l.identity.names = l.argumentVars.map Variable.name
  | ⟨_, arguments, _, _, _⟩ => Term.names_identityAll arguments

theorem Term.names_identityAll : ∀ ts : List Term,
    IdentityKey.namesAll (Term.identityAll ts) = (Term.argumentVarsAll ts).map Variable.name
  | [] => rfl
  | t :: rest => by
      rw [Term.identityAll, IdentityKey.namesAll, Term.argumentVarsAll, List.map_append,
        Term.names_identity t, Term.names_identityAll rest]

end

/-! ## Literals without annotations -/

mutual

/-- Whether there is no annotation in a term. -/
def Term.isBare : Term → Bool
  | .raw _ => true
  | .var _ => true
  | .lit l => l.isBare

/-- Whether a literal has no annotation, nor any literal in it. -/
def Literal.isBare : Literal → Bool
  | ⟨_, arguments, annotations, _, _⟩ => annotations.isEmpty && Term.areBare arguments

def Term.areBare : List Term → Bool
  | [] => true
  | t :: rest => t.isBare && Term.areBare rest

end

/-- Whether annotations stand at a literal itself only, and have none of their own. -/
def Literal.isFlat (l : Literal) : Bool :=
  l.arguments.all Term.isBare && l.annotations.all Literal.isBare

theorem Term.areBare_iff (ts : List Term) : Term.areBare ts = true ↔ ∀ t ∈ ts, t.isBare = true := by
  induction ts with
  | nil => simp [Term.areBare]
  | cons t rest ih => simp [Term.areBare, ih]

theorem Literal.isBare_iff (l : Literal) :
    l.isBare = true ↔ l.annotations = [] ∧ ∀ t ∈ l.arguments, t.isBare = true := by
  obtain ⟨functor, arguments, annotations, negated, marked⟩ := l
  simp [Literal.isBare, Term.areBare_iff]

theorem Literal.isFlat_iff (l : Literal) :
    l.isFlat = true ↔
      (∀ t ∈ l.arguments, t.isBare = true) ∧ ∀ a ∈ l.annotations, a.isBare = true := by
  simp [Literal.isFlat]

theorem Literal.isFlat_of_isBare {l : Literal} (h : l.isBare = true) : l.isFlat = true := by
  obtain ⟨hnone, hbare⟩ := l.isBare_iff.1 h
  rw [Literal.isFlat_iff, hnone]
  exact ⟨hbare, fun _ ha => absurd ha List.not_mem_nil⟩

/-- Without annotations all variables are in arguments. -/
theorem Literal.occurrences_of_isBare {l : Literal} (h : l.isBare = true) :
    l.occurrences = l.argumentVars := by
  induction l using Literal.induction with
  | step l harguments hannotations =>
      obtain ⟨hnone, hbare⟩ := l.isBare_iff.1 h
      rw [Literal.occurrences_eq, Literal.argumentVars_eq, hnone, List.flatMap_nil,
        List.append_nil]
      refine List.flatMap_congr ?_
      intro t ht
      cases t with
      | raw v => rfl
      | var y => rfl
      | lit m => exact harguments m ht (hbare _ ht)

/-! ## Replacing variables -/

theorem Literal.occurrences_substitute (f : Variable → Term) (l : Literal) :
    (l.substitute f).occurrences = l.occurrences.flatMap fun x => (f x).occurrences := by
  induction l using Literal.induction with
  | step l harguments hannotations =>
      rw [Literal.substitute_eq, Literal.occurrences_eq, Literal.occurrences_eq l,
        List.flatMap_append, List.flatMap_assoc, List.flatMap_assoc, List.flatMap_map,
        List.flatMap_map]
      refine congrArg₂ List.append (List.flatMap_congr ?_) (List.flatMap_congr hannotations)
      intro t ht
      cases t with
      | raw v => rfl
      | var x => simp [Term.substitute, Term.occurrences]
      | lit m => exact harguments m ht

theorem Literal.isBare_substitute {f : Variable → Term} {l : Literal} (h : l.isBare = true)
    (hf : ∀ x ∈ l.occurrences, (f x).isBare = true) : (l.substitute f).isBare = true := by
  induction l using Literal.induction with
  | step l harguments hannotations =>
      obtain ⟨hnone, hbare⟩ := l.isBare_iff.1 h
      rw [Literal.occurrences_eq] at hf
      rw [Literal.substitute_eq, Literal.isBare_iff]
      refine ⟨by rw [hnone]; rfl, ?_⟩
      intro u hu
      obtain ⟨t, ht, rfl⟩ := List.mem_map.1 hu
      have hinside : ∀ x ∈ t.occurrences, (f x).isBare = true := fun x hx =>
        hf x (List.mem_append_left _ (List.mem_flatMap.2 ⟨t, ht, hx⟩))
      cases t with
      | raw v => rfl
      | var x => exact hinside x List.mem_cons_self
      | lit m => exact harguments m ht (hbare _ ht) hinside

/-- Terms without annotations in the place of variables add none. -/
theorem Literal.isFlat_substitute {f : Variable → Term} {l : Literal} (h : l.isFlat = true)
    (hf : ∀ x ∈ l.occurrences, (f x).isBare = true) : (l.substitute f).isFlat = true := by
  obtain ⟨harguments, hannotations⟩ := l.isFlat_iff.1 h
  rw [Literal.occurrences_eq] at hf
  rw [Literal.substitute_eq, Literal.isFlat_iff]
  refine ⟨?_, ?_⟩
  · intro u hu
    obtain ⟨t, ht, rfl⟩ := List.mem_map.1 hu
    have hinside : ∀ x ∈ t.occurrences, (f x).isBare = true := fun x hx =>
      hf x (List.mem_append_left _ (List.mem_flatMap.2 ⟨t, ht, hx⟩))
    cases t with
    | raw v => rfl
    | var x => exact hinside x List.mem_cons_self
    | lit m => exact Literal.isBare_substitute (harguments _ ht) hinside
  · intro b hb
    obtain ⟨a, ha, rfl⟩ := List.mem_map.1 hb
    exact Literal.isBare_substitute (hannotations a ha) fun x hx =>
      hf x (List.mem_append_right _ (List.mem_flatMap.2 ⟨a, ha, hx⟩))

/-- A variable in a filled literal is an unbound one of the literal, or comes in with a value. -/
theorem Context.mem_fill_cases {s : Store} {c : Context} {l : Literal} {x : Variable}
    (hx : x ∈ (c.fill s l).occurrences) :
    (x ∈ l.occurrences ∧ c.value? s x.name = none) ∨
      ∃ y ∈ l.occurrences, ∃ t, c.value? s y.name = some t ∧ x ∈ t.occurrences := by
  rw [fill, Literal.occurrences_substitute, List.mem_flatMap] at hx
  obtain ⟨y, hy, hx⟩ := hx
  cases hvalue : c.value? s y.name with
  | none =>
      rw [hvalue, Option.getD_none] at hx
      rw [List.mem_singleton.1 hx]
      exact .inl ⟨hy, hvalue⟩
  | some t =>
      rw [hvalue, Option.getD_some] at hx
      exact .inr ⟨y, hy, t, hvalue, hx⟩

/-- Once bound variables are replaced by terms without variables, only unbound ones are left. -/
theorem Context.mem_fill {s : Store} {c : Context} {l : Literal}
    (hclosed : ∀ name t, c.value? s name = some t → t.occurrences = []) {x : Variable}
    (hx : x ∈ (c.fill s l).occurrences) : x ∈ l.occurrences ∧ c.value? s x.name = none := by
  rcases mem_fill_cases hx with hunbound | ⟨y, -, t, ht, hx⟩
  · exact hunbound
  · rw [hclosed y.name t ht] at hx
    cases hx

/-! ## Resolving -/

@[simp] theorem Term.resolve_raw (s : Store) (v : Value) : (Term.raw v).resolve s = .raw v := by
  unfold Term.resolve
  cases s.slots.size <;> rfl

@[simp] theorem Term.resolve_lit (s : Store) (l : Literal) : (Term.lit l).resolve s = .lit l := by
  unfold Term.resolve
  cases s.slots.size <;> rfl

/-- An unbound variable leads nowhere, whichever of the slots are read. -/
theorem Term.resolveWith_of_unbound {s : Store} {slot : SlotId → Option Term} {x : Variable}
    (hslot : ∀ i, s.readSlot i = none → slot i = none) (h : x.isBound s = false) :
    (Term.var x).resolveWith slot = .var x := by
  have hcell : x.cell.resolveWith slot = none := by
    have hnone := Option.isSome_eq_false_iff.1 h
    unfold Variable.value? at hnone
    cases hcell : x.cell with
    | free value =>
        rw [hcell] at hnone
        cases value with
        | none => rfl
        | some t => cases hnone
    | constant t =>
        rw [hcell] at hnone
        cases hnone
    | mutex i =>
        rw [hcell] at hnone
        exact hslot i (Option.isNone_iff_eq_none.1 hnone)
    | relocate target value =>
        rw [hcell] at hnone
        cases value with
        | none => rfl
        | some t => cases hnone
  obtain ⟨name, cell⟩ := x
  rw [Term.resolveWith, hcell, Option.getD_none]

theorem Term.resolve_of_unbound {s : Store} {x : Variable} (h : x.isBound s = false) :
    (Term.var x).resolve s = .var x := by
  unfold Term.resolve
  cases s.slots.size with
  | zero => exact Term.resolveWith_of_unbound (fun _ _ => rfl) h
  | succ n =>
      refine Term.resolveWith_of_unbound (s := s) ?_ h
      intro i hi
      rw [hi, Option.map_none]

theorem Term.resolve_of_occurrences {s : Store} {t : Term}
    (h : ∀ x ∈ t.occurrences, x.isBound s = false) : t.resolve s = t := by
  cases t with
  | raw v => exact Term.resolve_raw s v
  | var x => exact Term.resolve_of_unbound (h x List.mem_cons_self)
  | lit l => exact Term.resolve_lit s l

theorem Term.resolve_of_ground {t : Term} (h : t.occurrences = []) (s : Store) :
    t.resolve s = t := by
  refine Term.resolve_of_occurrences ?_
  intro x hx
  rw [h] at hx
  cases hx

/-- The terms that a match can meet in a literal: its arguments, followed to their values, and
those of the literals in it. -/
inductive Literal.Shows (s : Store) : Literal → Term → Prop where
  | argument {l : Literal} {t : Term} (ht : t ∈ l.arguments) : Shows s l (t.resolve s)
  | resolved {l : Literal} {t : Term} (h : Shows s l t) : Shows s l (t.resolve s)
  | nested {l m : Literal} {t u : Term} (ht : t ∈ l.arguments) (hresolve : t.resolve s = .lit m)
      (h : Shows s m u) : Shows s l u
  | annotated {l a : Literal} {u : Term} (ha : a ∈ l.annotations) (h : Shows s a u) : Shows s l u

theorem Literal.ground_of_mem_arguments {l : Literal} (h : l.occurrences = []) {t : Term}
    (ht : t ∈ l.arguments) : t.occurrences = [] := by
  rw [Literal.occurrences_eq, List.append_eq_nil_iff] at h
  exact List.flatMap_eq_nil_iff.1 h.1 t ht

theorem Literal.ground_of_mem_annotations {l : Literal} (h : l.occurrences = []) {a : Literal}
    (ha : a ∈ l.annotations) : a.occurrences = [] := by
  rw [Literal.occurrences_eq, List.append_eq_nil_iff] at h
  exact List.flatMap_eq_nil_iff.1 h.2 a ha

theorem Literal.occurrences_subset_of_mem_arguments {l : Literal} {t : Term}
    (ht : t ∈ l.arguments) : t.occurrences ⊆ l.occurrences := by
  intro x hx
  rw [Literal.occurrences_eq]
  exact List.mem_append_left _ (List.mem_flatMap.2 ⟨t, ht, hx⟩)

theorem Literal.occurrences_subset_of_mem_annotations {l a : Literal} (ha : a ∈ l.annotations) :
    a.occurrences ⊆ l.occurrences := by
  intro x hx
  rw [Literal.occurrences_eq]
  exact List.mem_append_right _ (List.mem_flatMap.2 ⟨a, ha, hx⟩)

/-- A literal whose variables are unbound shows terms with its own variables only. -/
theorem Literal.Shows.subset {s : Store} {l : Literal} {t : Term} (h : l.Shows s t)
    (hunbound : ∀ x ∈ l.occurrences, x.isBound s = false) : t.occurrences ⊆ l.occurrences := by
  induction h with
  | argument ht =>
      have hinside := Literal.occurrences_subset_of_mem_arguments ht
      rwa [Term.resolve_of_occurrences fun x hx => hunbound x (hinside hx)]
  | resolved h ih =>
      have hinside := ih hunbound
      rwa [Term.resolve_of_occurrences fun x hx => hunbound x (hinside hx)]
  | nested ht hresolve h ih =>
      have hinside := Literal.occurrences_subset_of_mem_arguments ht
      rw [Term.resolve_of_occurrences fun x hx => hunbound x (hinside hx)] at hresolve
      rw [hresolve] at hinside
      exact List.Subset.trans (ih fun x hx => hunbound x (hinside hx)) hinside
  | annotated ha h ih =>
      have hinside := Literal.occurrences_subset_of_mem_annotations ha
      exact List.Subset.trans (ih fun x hx => hunbound x (hinside hx)) hinside

/-- A literal without variables shows terms without variables. -/
theorem Literal.Shows.ground {s : Store} {l : Literal} {t : Term} (h : l.Shows s t)
    (hground : l.occurrences = []) : t.occurrences = [] := by
  have hunbound : ∀ x ∈ l.occurrences, x.isBound s = false := by
    rw [hground]
    exact fun _ hx => absurd hx List.not_mem_nil
  exact List.eq_nil_of_subset_nil (hground ▸ h.subset hunbound)

/-- A literal that has annotations at most at itself shows terms without annotations. -/
theorem Literal.Shows.isBare {s : Store} {l : Literal} {t : Term} (h : l.Shows s t)
    (hground : l.occurrences = []) (hflat : l.isFlat = true) : t.isBare = true := by
  induction h with
  | argument ht =>
      rw [Term.resolve_of_ground (Literal.ground_of_mem_arguments hground ht)]
      exact (Literal.isFlat_iff _).1 hflat |>.1 _ ht
  | resolved h ih =>
      rw [Term.resolve_of_ground (h.ground hground)]
      exact ih hground hflat
  | nested ht hresolve h ih =>
      have hbare := (Literal.isFlat_iff _).1 hflat |>.1 _ ht
      have ht := Literal.ground_of_mem_arguments hground ht
      rw [Term.resolve_of_ground ht] at hresolve
      rw [hresolve] at ht hbare
      exact ih ht (Literal.isFlat_of_isBare hbare)
  | annotated ha h ih =>
      have hbare := (Literal.isFlat_iff _).1 hflat |>.2 _ ha
      exact ih (Literal.ground_of_mem_annotations hground ha) (Literal.isFlat_of_isBare hbare)

end Deliberation
