import Deliberation.Proofs.Mirror
import Deliberation.Proofs.Term.Identity
import Mathlib.Logic.Function.Basic

/-!
# Renaming the variables of terms

A renaming changes the names of variables, at every depth: in terms, in the cells
of variables, in the slots of a store, and the names that relocating variables
point to.  Functors, values and slots stay.  An injective renaming tells the same
terms apart as before, and following bound variables commutes with it.
-/

namespace Deliberation

/-! ## Replacing -/

section Parts

variable (f : Variable → Term) (l : Literal)

@[simp] theorem Literal.functor_substitute : (l.substitute f).functor = l.functor := by
  rw [Literal.substitute_eq]

@[simp] theorem Literal.negated_substitute : (l.substitute f).negated = l.negated := by
  rw [Literal.substitute_eq]

@[simp] theorem Literal.arguments_substitute :
    (l.substitute f).arguments = l.arguments.map (Term.substitute f) := by
  rw [Literal.substitute_eq]

@[simp] theorem Literal.annotations_substitute :
    (l.substitute f).annotations = l.annotations.map (Literal.substitute f) := by
  rw [Literal.substitute_eq]

@[simp] theorem Literal.arity_substitute : (l.substitute f).arity = l.arity := by
  rw [Literal.arity, Literal.arguments_substitute, List.length_map, Literal.arity]

end Parts

theorem Literal.substitute_substitute (f g : Variable → Term) (l : Literal) :
    (l.substitute f).substitute g = l.substitute fun x => (f x).substitute g := by
  induction l using Literal.induction with
  | step l harguments hannotations =>
      simp only [Literal.substitute_eq, List.map_map]
      congr 1
      · refine List.map_congr_left fun t ht => ?_
        cases t with
        | raw v => rfl
        | var x => rfl
        | lit m => exact congrArg Term.lit (harguments m ht)
      · exact List.map_congr_left hannotations

theorem Literal.substitute_congr {f g : Variable → Term} {l : Literal}
    (h : ∀ x ∈ l.occurrences, f x = g x) : l.substitute f = l.substitute g := by
  induction l using Literal.induction with
  | step l harguments hannotations =>
      rw [Literal.substitute_eq, Literal.substitute_eq]
      congr 1
      · refine List.map_congr_left fun t ht => ?_
        have hinside := Literal.occurrences_subset_of_mem_arguments ht
        cases t with
        | raw v => rfl
        | var x => exact h x (hinside List.mem_cons_self)
        | lit m => exact congrArg Term.lit (harguments m ht fun x hx => h x (hinside hx))
      · refine List.map_congr_left fun a ha => hannotations a ha fun x hx => ?_
        exact h x (Literal.occurrences_subset_of_mem_annotations ha hx)

/-! ## Terms -/

mutual

/-- Rename the variables of a term. -/
def Term.rename (f : Path → Path) : Term → Term
  | .raw v => .raw v
  | .var x => .var (x.rename f)
  | .lit l => .lit (l.rename f)

/-- Rename the variables of a literal. -/
def Literal.rename (f : Path → Path) : Literal → Literal
  | ⟨functor, arguments, annotations, negated, marked⟩ =>
      ⟨functor, Term.renameAll f arguments, Literal.renameAll f annotations, negated, marked⟩

/-- Rename a variable and those in its cell. -/
def Variable.rename (f : Path → Path) : Variable → Variable
  | ⟨name, cell⟩ => ⟨f name, cell.rename f⟩

/-- Rename the variables in a cell, and the one that it points to. -/
def Cell.rename (f : Path → Path) : Cell → Cell
  | .free none => .free none
  | .free (some t) => .free (some (t.rename f))
  | .constant t => .constant (t.rename f)
  | .mutex i => .mutex i
  | .relocate target none => .relocate (f target) none
  | .relocate target (some t) => .relocate (f target) (some (t.rename f))

/-- Rename the variables of a list of terms. -/
def Term.renameAll (f : Path → Path) : List Term → List Term
  | [] => []
  | t :: rest => t.rename f :: Term.renameAll f rest

/-- Rename the variables of a list of literals. -/
def Literal.renameAll (f : Path → Path) : List Literal → List Literal
  | [] => []
  | l :: rest => l.rename f :: Literal.renameAll f rest

end

section Terms

variable (f : Path → Path)

theorem Term.renameAll_eq (ts : List Term) : Term.renameAll f ts = ts.map (Term.rename f) := by
  induction ts with
  | nil => rfl
  | cons t rest ih => rw [Term.renameAll, ih, List.map_cons]

theorem Literal.renameAll_eq (ls : List Literal) :
    Literal.renameAll f ls = ls.map (Literal.rename f) := by
  induction ls with
  | nil => rfl
  | cons l rest ih => rw [Literal.renameAll, ih, List.map_cons]

theorem Literal.rename_eq (l : Literal) :
    l.rename f =
      ⟨l.functor, l.arguments.map (Term.rename f), l.annotations.map (Literal.rename f),
        l.negated, l.marked⟩ := by
  obtain ⟨functor, arguments, annotations, negated, marked⟩ := l
  rw [Literal.rename, Term.renameAll_eq, Literal.renameAll_eq]

@[simp] theorem Literal.functor_rename (l : Literal) : (l.rename f).functor = l.functor := by
  rw [Literal.rename_eq]

@[simp] theorem Literal.negated_rename (l : Literal) : (l.rename f).negated = l.negated := by
  rw [Literal.rename_eq]

@[simp] theorem Literal.arguments_rename (l : Literal) :
    (l.rename f).arguments = l.arguments.map (Term.rename f) := by
  rw [Literal.rename_eq]

@[simp] theorem Literal.annotations_rename (l : Literal) :
    (l.rename f).annotations = l.annotations.map (Literal.rename f) := by
  rw [Literal.rename_eq]

@[simp] theorem Literal.arity_rename (l : Literal) : (l.rename f).arity = l.arity := by
  rw [Literal.arity, Literal.arguments_rename, List.length_map, Literal.arity]

theorem Variable.rename_eq (x : Variable) : x.rename f = ⟨f x.name, x.cell.rename f⟩ := by
  obtain ⟨name, cell⟩ := x
  rw [Variable.rename]

@[simp] theorem Variable.name_rename (x : Variable) : (x.rename f).name = f x.name := by
  rw [Variable.rename_eq]

mutual

theorem Term.rename_id : ∀ t : Term, t.rename id = t
  | .raw _ => rfl
  | .var x => congrArg Term.var (Variable.rename_id x)
  | .lit l => congrArg Term.lit (Literal.rename_id l)

theorem Literal.rename_id : ∀ l : Literal, l.rename id = l
  | ⟨functor, arguments, annotations, negated, marked⟩ =>
      congrArg₂ (Literal.mk functor · · negated marked) (Term.renameAll_id arguments)
        (Literal.renameAll_id annotations)

theorem Variable.rename_id : ∀ x : Variable, x.rename id = x
  | ⟨name, cell⟩ => congrArg (Variable.mk name) (Cell.rename_id cell)

theorem Cell.rename_id : ∀ cell : Cell, cell.rename id = cell
  | .free none => rfl
  | .free (some t) => congrArg (fun t => Cell.free (some t)) (Term.rename_id t)
  | .constant t => congrArg Cell.constant (Term.rename_id t)
  | .mutex _ => rfl
  | .relocate _ none => rfl
  | .relocate target (some t) =>
      congrArg (fun t => Cell.relocate target (some t)) (Term.rename_id t)

theorem Term.renameAll_id : ∀ ts : List Term, Term.renameAll id ts = ts
  | [] => rfl
  | t :: rest => congrArg₂ List.cons (Term.rename_id t) (Term.renameAll_id rest)

theorem Literal.renameAll_id : ∀ ls : List Literal, Literal.renameAll id ls = ls
  | [] => rfl
  | l :: rest => congrArg₂ List.cons (Literal.rename_id l) (Literal.renameAll_id rest)

end

/-- A literal is renamed by putting renamed variables in the place of its variables. -/
theorem Literal.rename_eq_substitute (l : Literal) :
    l.rename f = l.substitute fun x => .var (x.rename f) := by
  induction l using Literal.induction with
  | step l harguments hannotations =>
      rw [Literal.rename_eq, Literal.substitute_eq]
      congr 1
      · refine List.map_congr_left fun t ht => ?_
        cases t with
        | raw v => rfl
        | var x => rfl
        | lit m => exact congrArg Term.lit (harguments m ht)
      · exact List.map_congr_left hannotations

theorem Term.rename_eq_substitute (t : Term) :
    t.rename f = t.substitute fun x => .var (x.rename f) := by
  cases t with
  | raw v => rfl
  | var x => rfl
  | lit l => exact congrArg Term.lit (l.rename_eq_substitute f)

theorem Literal.occurrences_rename (l : Literal) :
    (l.rename f).occurrences = l.occurrences.map (Variable.rename f) := by
  rw [Literal.rename_eq_substitute, Literal.occurrences_substitute, List.map_eq_flatMap]
  rfl

theorem Term.occurrences_rename (t : Term) :
    (t.rename f).occurrences = t.occurrences.map (Variable.rename f) := by
  cases t with
  | raw v => rfl
  | var x => rfl
  | lit l => exact l.occurrences_rename f

/-- Replacing renamed variables by renamed terms is renaming what the replacement gives. -/
theorem Literal.substitute_rename {g h : Variable → Term} {l : Literal}
    (hgh : ∀ x ∈ l.occurrences, h (x.rename f) = (g x).rename f) :
    (l.rename f).substitute h = (l.substitute g).rename f := by
  rw [Literal.rename_eq_substitute, Literal.rename_eq_substitute, Literal.substitute_substitute,
    Literal.substitute_substitute]
  refine Literal.substitute_congr fun x hx => ?_
  rw [← Term.rename_eq_substitute]
  exact hgh x hx

end Terms

/-! ## Names and keys -/

theorem Term.mentions_rename {f : Path → Path} (hf : Function.Injective f) (name : Path)
    (t : Term) : (t.rename f).mentions (f name) = t.mentions name := by
  rw [Term.mentions, Term.occurrences_rename, List.any_map, Term.mentions]
  congr 1
  funext x
  rw [Function.comp_apply, Variable.name_rename]
  exact decide_eq_decide.2 hf.eq_iff

mutual

/-- Rename the variables in an identity key. -/
def IdentityKey.rename (f : Path → Path) : IdentityKey → IdentityKey
  | .value outline => .value outline
  | .var name => .var (f name)
  | .literal functor negated marked arguments =>
      .literal functor negated marked (IdentityKey.renameAll f arguments)

def IdentityKey.renameAll (f : Path → Path) : List IdentityKey → List IdentityKey
  | [] => []
  | key :: rest => key.rename f :: IdentityKey.renameAll f rest

end

mutual

theorem IdentityKey.rename_inj {f : Path → Path} (hf : Function.Injective f) :
    ∀ a b : IdentityKey, a.rename f = b.rename f ↔ a = b
  | .value _, b => by cases b <;> simp [IdentityKey.rename]
  | .var _, b => by cases b <;> simp [IdentityKey.rename, hf.eq_iff]
  | .literal _ _ _ as, b => by
      cases b <;> simp [IdentityKey.rename, IdentityKey.renameAll_inj hf as]

theorem IdentityKey.renameAll_inj {f : Path → Path} (hf : Function.Injective f) :
    ∀ as bs : List IdentityKey,
      IdentityKey.renameAll f as = IdentityKey.renameAll f bs ↔ as = bs
  | [], bs => by cases bs <;> simp [IdentityKey.renameAll]
  | a :: as, bs => by
      cases bs <;>
        simp [IdentityKey.renameAll, IdentityKey.rename_inj hf a, IdentityKey.renameAll_inj hf as]

end

/-! ## Shapes -/

section Shapes

variable {f : Variable → Term}

theorem Term.shapeAll_eq (ts : List Term) : Term.shapeAll ts = ts.map Term.shape := by
  induction ts with
  | nil => rfl
  | cons t rest ih => rw [Term.shapeAll, ih, List.map_cons]

mutual

/-- Terms that show no structure leave the structure around them as it is. -/
theorem Term.shape_substitute : ∀ {t : Term}, (∀ x ∈ t.occurrences, (f x).shape = .hole) →
    (t.substitute f).shape = t.shape
  | .raw _, _ => rfl
  | .var x, h => h x List.mem_cons_self
  | .lit _, h => Literal.shape_substitute h

theorem Literal.shape_substitute : ∀ {l : Literal},
    (∀ x ∈ l.occurrences, (f x).shape = .hole) → (l.substitute f).shape = l.shape
  | ⟨functor, _, _, negated, _⟩, h =>
      congrArg (StructureKey.literal functor.text negated)
        (Term.shapeAll_substitute fun x hx => h x (List.mem_append_left _ hx))

theorem Term.shapeAll_substitute : ∀ {ts : List Term},
    (∀ x ∈ Term.occurrencesAll ts, (f x).shape = .hole) →
      Term.shapeAll (Term.substituteAll f ts) = Term.shapeAll ts
  | [], _ => rfl
  | _ :: _, h =>
      congrArg₂ List.cons (Term.shape_substitute fun x hx => h x (List.mem_append_left _ hx))
        (Term.shapeAll_substitute fun x hx => h x (List.mem_append_right _ hx))

end

theorem Literal.argumentShapes_substitute {l : Literal}
    (h : ∀ x ∈ l.occurrences, (f x).shape = .hole) :
    (l.substitute f).argumentShapes = l.argumentShapes := by
  obtain ⟨functor, arguments, annotations, negated, marked⟩ := l
  exact Term.shapeAll_substitute fun x hx => h x (List.mem_append_left _ hx)

theorem Literal.annotationShapes_substitute {l : Literal}
    (h : ∀ x ∈ l.occurrences, (f x).shape = .hole) :
    (l.substitute f).annotationShapes = l.annotationShapes := by
  rw [Literal.annotationShapes, Literal.substitute_eq, List.map_map, Literal.annotationShapes]
  refine List.map_congr_left fun a ha => Literal.shape_substitute fun x hx => h x ?_
  rw [Literal.occurrences_eq]
  exact List.mem_append_right _ (List.mem_flatMap.2 ⟨a, ha, hx⟩)

end Shapes

section Substitutions

/-! Variables in the place of variables, whose names follow a renaming. -/

variable {f : Path → Path} {g h : Variable → Variable}

theorem Literal.argumentShapes_substitute_var (l : Literal) :
    (l.substitute fun x => .var (g x)).argumentShapes = l.argumentShapes :=
  Literal.argumentShapes_substitute fun _ _ => rfl

theorem Literal.annotationShapes_substitute_var (l : Literal) :
    (l.substitute fun x => .var (g x)).annotationShapes = l.annotationShapes :=
  Literal.annotationShapes_substitute fun _ _ => rfl

theorem Literal.identity_substitute_var (hg : ∀ x, (g x).name = f x.name) (l : Literal) :
    (l.substitute fun x => .var (g x)).identity = l.identity.rename f := by
  have hall : ∀ ts : List Term, IdentityKey.renameAll f (Term.identityAll ts) =
      ts.map fun t => t.identity.rename f := by
    intro ts
    induction ts with
    | nil => rfl
    | cons t rest ih => rw [Term.identityAll, IdentityKey.renameAll, ih, List.map_cons]
  induction l using Literal.induction with
  | step l harguments hannotations =>
      obtain ⟨functor, arguments, annotations, negated, marked⟩ := l
      rw [Literal.substitute_eq, Literal.identity, Literal.identity, IdentityKey.rename, hall,
        Term.identityAll_eq, List.map_map]
      congr 1
      refine List.map_congr_left fun t ht => ?_
      cases t with
      | raw v => rfl
      | var x => exact congrArg IdentityKey.var (hg x)
      | lit m => exact harguments m ht

theorem Term.equal_substitute_var_of (hf : Function.Injective f) (hg : ∀ x, (g x).name = f x.name)
    (hh : ∀ x, (h x).name = f x.name) {heap : Heap} {t : Term}
    (hliteral : ∀ l, t = .lit l → ∀ m : Literal,
      (l.substitute fun x => .var (g x)).equal heap (m.substitute fun x => .var (h x)) =
        l.equal heap m) (u : Term) :
    (t.substitute fun x => .var (g x)).equal heap (u.substitute fun x => .var (h x)) =
      t.equal heap u := by
  cases t with
  | raw v => cases u <;> rfl
  | var x =>
      cases u with
      | var y => simp [Term.substitute, Term.equal, hg, hh, hf.eq_iff]
      | raw v => rfl
      | lit m => rfl
  | lit l =>
      cases u with
      | lit m => exact hliteral l rfl m
      | raw v => rfl
      | var x => rfl

/-- Equality does not look at the cells of variables, and at their names only to tell them apart. -/
theorem Literal.equal_substitute_var (hf : Function.Injective f) (hg : ∀ x, (g x).name = f x.name)
    (hh : ∀ x, (h x).name = f x.name) (heap : Heap) (l m : Literal) :
    (l.substitute fun x => .var (g x)).equal heap (m.substitute fun x => .var (h x)) =
      l.equal heap m := by
  induction l using Literal.induction generalizing m with
  | step l harguments hannotations =>
      have hterm : ∀ t ∈ l.arguments, ∀ u : Term,
          (t.substitute fun x => .var (g x)).equal heap (u.substitute fun x => .var (h x)) =
            t.equal heap u := fun t ht =>
        Term.equal_substitute_var_of hf hg hh (fun k hk => harguments k (hk ▸ ht))
      rw [Bool.eq_iff_iff, Literal.equal_iff, Literal.equal_iff, ← Literal.identity_eq_iff,
        ← Literal.identity_eq_iff, Literal.identity_substitute_var hg,
        Literal.identity_substitute_var hh, IdentityKey.rename_inj hf, Literal.substitute_eq,
        Literal.substitute_eq, Term.equalAll_iff_forall₂, Term.equalAll_iff_forall₂,
        List.forall₂_map_left_iff, List.forall₂_map_right_iff]
      refine and_congr_right fun _ => ?_
      rw [List.forall₂_iff_zip, List.forall₂_iff_zip]
      refine and_congr_right fun _ => forall₂_congr fun t u => forall_congr' fun htu => ?_
      rw [hterm t (List.of_mem_zip htu).1 u]

theorem Term.equal_substitute_var (hf : Function.Injective f) (hg : ∀ x, (g x).name = f x.name)
    (hh : ∀ x, (h x).name = f x.name) (heap : Heap) (t u : Term) :
    (t.substitute fun x => .var (g x)).equal heap (u.substitute fun x => .var (h x)) =
      t.equal heap u :=
  Term.equal_substitute_var_of hf hg hh (fun l _ => l.equal_substitute_var hf hg hh heap) u

end Substitutions

section Keys

variable {f : Path → Path}

theorem Term.equal_rename (hf : Function.Injective f) (heap : Heap) (t u : Term) :
    (t.rename f).equal heap (u.rename f) = t.equal heap u := by
  rw [Term.rename_eq_substitute, Term.rename_eq_substitute]
  exact Term.equal_substitute_var hf (fun x => x.name_rename f) (fun x => x.name_rename f) heap t u

theorem Literal.equal_rename (hf : Function.Injective f) (heap : Heap) (l m : Literal) :
    (l.rename f).equal heap (m.rename f) = l.equal heap m :=
  Term.equal_rename hf heap (.lit l) (.lit m)

end Keys

/-! ## Stores -/

/-- Rename the variables in the slots of a store. -/
def Store.rename (f : Path → Path) (s : Store) : Store :=
  { s with slots := s.slots.map (Option.map (Term.rename f)) }

section Stores

variable (f : Path → Path)

theorem Store.rename_id (s : Store) : s.rename id = s := by
  have hterm : Term.rename id = id := funext Term.rename_id
  rw [Store.rename, hterm, Option.map_id, Array.map_id]

@[simp] theorem Store.heap_rename (s : Store) : (s.rename f).heap = s.heap := rfl

theorem Store.size_slots_rename (s : Store) : (s.rename f).slots.size = s.slots.size :=
  Array.size_map ..

theorem Store.readSlot_rename (s : Store) (i : SlotId) :
    (s.rename f).readSlot i = (s.readSlot i).map (Term.rename f) := by
  unfold Store.readSlot Store.rename
  rw [Array.getD_eq_getD_getElem?, Array.getD_eq_getD_getElem?, Array.getElem?_map]
  cases s.slots[i]? <;> rfl

theorem Store.writeSlot_rename (s : Store) (i : SlotId) (t : Term) :
    (s.rename f).writeSlot i (t.rename f) = (s.writeSlot i t).rename f := by
  unfold Store.writeSlot Store.rename
  rw [Array.map_setIfInBounds]
  rfl

theorem Store.allocSlot_rename (s : Store) :
    (s.rename f).allocSlot none = ((s.allocSlot none).1.rename f, (s.allocSlot none).2) := by
  unfold Store.allocSlot Store.rename
  rw [Array.map_push, Array.size_map]
  rfl

mutual

theorem Term.resolveWith_rename {slot renamed : SlotId → Option Term}
    (hslot : ∀ i, renamed i = (slot i).map (Term.rename f)) :
    ∀ t : Term, (t.rename f).resolveWith renamed = (t.resolveWith slot).rename f
  | .raw _ => rfl
  | .lit _ => rfl
  | .var ⟨name, cell⟩ => by
      rw [Term.rename, Variable.rename, Term.resolveWith, Cell.resolveWith_rename hslot cell,
        Term.resolveWith]
      cases cell.resolveWith slot with
      | none =>
          rw [Option.map_none, Option.getD_none, Option.getD_none, Term.rename, Variable.rename]
      | some t => rfl

theorem Cell.resolveWith_rename {slot renamed : SlotId → Option Term}
    (hslot : ∀ i, renamed i = (slot i).map (Term.rename f)) :
    ∀ cell : Cell, (cell.rename f).resolveWith renamed =
      (cell.resolveWith slot).map (Term.rename f)
  | .free none => rfl
  | .free (some t) => congrArg some (Term.resolveWith_rename hslot t)
  | .constant t => congrArg some (Term.resolveWith_rename hslot t)
  | .mutex i => hslot i
  | .relocate _ none => rfl
  | .relocate _ (some t) => congrArg some (Term.resolveWith_rename hslot t)

end

/-- Following bound variables leads to the renamed end. -/
theorem Term.resolve_rename (s : Store) (t : Term) :
    (t.rename f).resolve (s.rename f) = (t.resolve s).rename f := by
  unfold Term.resolve
  rw [Store.size_slots_rename]
  generalize s.slots.size = n
  induction n generalizing t with
  | zero =>
      have hnone : ∀ _ : SlotId, none = (none : Option Term).map (Term.rename f) := fun _ => rfl
      exact Term.resolveWith_rename f hnone t
  | succ n ih =>
      refine Term.resolveWith_rename f (fun i => ?_) t
      rw [Store.readSlot_rename]
      cases s.readSlot i with
      | none => rfl
      | some content => exact congrArg some (ih content)

/-- A term stands for the same raw value, or for none in either case. -/
theorem Term.rawValue_rename (s : Store) (t : Term) :
    Both TermError.code Eq (t.rawValue s) ((t.rename f).rawValue (s.rename f)) := by
  unfold Term.rawValue
  rw [Term.resolve_rename]
  cases t.resolve s with
  | raw v => exact .ok rfl
  | var x => exact .error rfl
  | lit l => exact .error rfl

theorem Variable.value?_rename (s : Store) (x : Variable) :
    (x.rename f).value? (s.rename f) = (x.value? s).map (Term.rename f) := by
  obtain ⟨name, cell⟩ := x
  rw [Variable.rename]
  cases cell with
  | free value => cases value <;> rfl
  | constant value => rfl
  | mutex i => exact Store.readSlot_rename f s i
  | relocate target value => cases value <;> rfl

theorem Variable.isBound_rename (s : Store) (x : Variable) :
    (x.rename f).isBound (s.rename f) = x.isBound s := by
  rw [Variable.isBound, Variable.value?_rename, Option.isSome_map, Variable.isBound]

/-- Binding a renamed variable to a renamed term. -/
theorem Variable.set_rename (s : Store) (x : Variable) (t : Term) :
    Both TermError.code (Becomes fun a => (a.1.rename f, a.2.rename f)) (x.set s t)
      ((x.rename f).set (s.rename f) (t.rename f)) := by
  obtain ⟨name, cell⟩ := x
  rw [Variable.rename]
  cases cell with
  | free value => cases value <;> exact .ok rfl
  | constant value => exact .error rfl
  | mutex i =>
      refine .ok ?_
      rw [Store.writeSlot_rename]
      rfl
  | relocate target value => cases value <;> exact .ok rfl

theorem Variable.unboundCopy_rename (s : Store) (x : Variable) :
    (x.rename f).unboundCopy (s.rename f) =
      ((x.unboundCopy s).1.rename f, (x.unboundCopy s).2.rename f) := by
  obtain ⟨name, cell⟩ := x
  rw [Variable.rename]
  cases cell with
  | free value => cases value <;> rfl
  | constant value => rfl
  | mutex i =>
      change (Variable.mk (f name) (.mutex ((s.rename f).allocSlot none).2),
        ((s.rename f).allocSlot none).1) = _
      rw [Store.allocSlot_rename]
      rfl
  | relocate target value => cases value <;> rfl

end Stores

end Deliberation
