import Deliberation.Proofs.Term.Grounding

/-!
# The structure of literals

The structure key of a literal keeps the text of its functor, its negation and the
nesting of its arguments.  Of raw values and variables it only keeps the place.  So
two literals have one key exactly when they are of one form, and a template whose
variables are filled in with raw values keeps its key, those of its arguments and
those of its annotations.
-/

namespace Deliberation

/-! ## Literals of one form -/

/-- Whether a term is a place for a value: anything but a literal. -/
def Term.isHole : Term → Bool
  | .lit _ => false
  | _ => true

mutual

/-- Terms of one form: two holes, or two literals of one form. -/
inductive Term.SameForm : Term → Term → Prop
  | holes {t u : Term} (ht : t.isHole = true) (hu : u.isHole = true) : Term.SameForm t u
  | literals {l m : Literal} (h : Literal.SameForm l m) : Term.SameForm (.lit l) (.lit m)

/-- Literals with one functor text, one negation and arguments of one form, place by place. -/
inductive Literal.SameForm : Literal → Literal → Prop
  | intro {l m : Literal} (htext : l.functor.text = m.functor.text)
      (hnegated : l.negated = m.negated)
      (harguments : List.Forall₂ Term.SameForm l.arguments m.arguments) : Literal.SameForm l m

end

theorem Literal.sameForm_iff (l m : Literal) :
    l.SameForm m ↔ l.functor.text = m.functor.text ∧ l.negated = m.negated ∧
      List.Forall₂ Term.SameForm l.arguments m.arguments := by
  constructor
  · rintro ⟨htext, hnegated, harguments⟩
    exact ⟨htext, hnegated, harguments⟩
  · rintro ⟨htext, hnegated, harguments⟩
    exact .intro htext hnegated harguments

theorem Literal.shape_eq (l : Literal) :
    l.shape = .literal l.functor.text l.negated l.argumentShapes := by
  obtain ⟨functor, arguments, annotations, negated, marked⟩ := l
  rfl

theorem Term.shapeAll_eq_iff (ts us : List Term) :
    Term.shapeAll ts = Term.shapeAll us ↔ List.Forall₂ (fun t u => t.shape = u.shape) ts us := by
  rw [Term.shapeAll_eq, Term.shapeAll_eq, ← List.forall₂_eq_eq_eq, List.forall₂_map_left_iff,
    List.forall₂_map_right_iff]

theorem Term.shape_eq_hole_iff (t : Term) : t.shape = .hole ↔ t.isHole = true := by
  cases t with
  | raw v => simp [Term.shape, Term.isHole]
  | var x => simp [Term.shape, Term.isHole]
  | lit l => simp [Term.shape, Term.isHole, Literal.shape_eq]

theorem Term.exists_lit_of_isHole {t : Term} (ht : t.isHole = false) : ∃ l, t = .lit l := by
  cases t with
  | lit l => exact ⟨l, rfl⟩
  | raw v => cases ht
  | var x => cases ht

/-- Terms have one shape exactly when they are of one form, if this holds of literals. -/
theorem Term.shape_eq_iff_of {t : Term}
    (hliteral : ∀ l, t = .lit l → ∀ m : Literal, l.shape = m.shape ↔ l.SameForm m) (u : Term) :
    t.shape = u.shape ↔ t.SameForm u := by
  constructor
  · intro hshape
    have hsame : t.isHole = u.isHole := by
      rw [Bool.eq_iff_iff, ← Term.shape_eq_hole_iff, ← Term.shape_eq_hole_iff, hshape]
    cases ht : t.isHole with
    | true => exact .holes ht (hsame ▸ ht)
    | false =>
        obtain ⟨l, rfl⟩ := Term.exists_lit_of_isHole ht
        obtain ⟨m, rfl⟩ := Term.exists_lit_of_isHole (hsame ▸ ht)
        exact .literals ((hliteral l rfl m).1 hshape)
  · intro hform
    cases hform with
    | holes ht hu => rw [(Term.shape_eq_hole_iff t).2 ht, (Term.shape_eq_hole_iff u).2 hu]
    | literals h => exact (hliteral _ rfl _).2 h

/-- The structure key tells literals of different form apart, and no others. -/
theorem Literal.shape_eq_iff (l m : Literal) : l.shape = m.shape ↔ l.SameForm m := by
  induction l using Literal.induction generalizing m with
  | step l harguments hannotations =>
      have hterm : ∀ t ∈ l.arguments, ∀ u : Term, t.shape = u.shape ↔ t.SameForm u :=
        fun t ht => Term.shape_eq_iff_of fun k hk => harguments k (hk ▸ ht)
      rw [Literal.shape_eq, Literal.shape_eq, StructureKey.literal.injEq, Literal.sameForm_iff,
        Literal.argumentShapes, Literal.argumentShapes, Term.shapeAll_eq_iff,
        List.forall₂_iff_zip, List.forall₂_iff_zip]
      refine and_congr_right fun _ => and_congr_right fun _ => and_congr_right fun _ => ?_
      refine forall₂_congr fun t u => forall_congr' fun htu => ?_
      exact hterm t (List.of_mem_zip htu).1 u

/-! ## Templates -/

/-- Literals that agree in their structure keys and in those of arguments and annotations. -/
structure Literal.SameKeys (l m : Literal) : Prop where
  structure_eq : l.shape = m.shape
  arguments_eq : l.argumentShapes = m.argumentShapes
  annotations_eq : l.annotationShapes = m.annotationShapes

namespace Literal.SameKeys

variable {k l m : Literal}

theorem symm (h : l.SameKeys m) : m.SameKeys l :=
  ⟨h.structure_eq.symm, h.arguments_eq.symm, h.annotations_eq.symm⟩

theorem trans (h : k.SameKeys l) (h' : l.SameKeys m) : k.SameKeys m :=
  ⟨h.structure_eq.trans h'.structure_eq, h.arguments_eq.trans h'.arguments_eq,
    h.annotations_eq.trans h'.annotations_eq⟩

end Literal.SameKeys

namespace Context

variable {s : Store} {c : Context}

/-- Every variable of a literal is bound to a raw value. -/
def BindsValues (s : Store) (c : Context) (l : Literal) : Prop :=
  ∀ x ∈ l.occurrences, ∃ v, c.value? s x.name = some (.raw v)

theorem grounded_of_raw {x : Variable} {v : Value} (h : c.value? s x.name = some (.raw v)) :
    c.grounded s x = .ok (.raw v) := by
  rw [grounded, groundVariable, h]
  rfl

/-- A literal that is filled in with raw values keeps its keys. -/
theorem BindsValues.exists_ground {l : Literal} (h : c.BindsValues s l) :
    ∃ g, c.ground s l = .ok g ∧ g.SameKeys l := by
  have hgrounded : ∀ x ∈ l.occurrences, ∃ v, c.grounded s x = .ok (.raw v) := by
    intro x hx
    obtain ⟨v, hv⟩ := h x hx
    exact ⟨v, grounded_of_raw hv⟩
  have hholes : ∀ x ∈ l.occurrences, (settled (c.grounded s) x).shape = .hole := by
    intro x hx
    obtain ⟨v, hv⟩ := hgrounded x hx
    rw [settled, hv]
    rfl
  refine ⟨_, ground_ok_iff.2 ⟨firstFailure_eq_none_iff.2 ?_, rfl⟩, ?_⟩
  · intro x hx
    obtain ⟨v, hv⟩ := hgrounded x hx
    exact ⟨_, hv⟩
  · constructor
    · exact Literal.shape_substitute hholes
    · exact Literal.argumentShapes_substitute hholes
    · exact Literal.annotationShapes_substitute hholes

end Context

/--
The structure keys of a literal depend on its template only: any two ways to fill
in a template with raw values succeed and give literals with the keys of the
template.  And one key means one form: the same functor text and negation, and
holes and literals of one form at the same places of the arguments.
-/
theorem Literal.structure_of_template :
    (∀ (t : Literal) (s₁ s₂ : Store) (c₁ c₂ : Context), c₁.BindsValues s₁ t → c₂.BindsValues s₂ t →
      ∃ g₁ g₂, c₁.ground s₁ t = .ok g₁ ∧ c₂.ground s₂ t = .ok g₂ ∧
        g₁.SameKeys g₂ ∧ g₁.SameKeys t ∧ g₂.SameKeys t) ∧
      ∀ l m : Literal, l.shape = m.shape ↔ l.SameForm m := by
  refine ⟨fun t s₁ s₂ c₁ c₂ hfirst hsecond => ?_, Literal.shape_eq_iff⟩
  obtain ⟨g₁, hg₁, hkeys₁⟩ := hfirst.exists_ground
  obtain ⟨g₂, hg₂, hkeys₂⟩ := hsecond.exists_ground
  exact ⟨g₁, g₂, hg₁, hg₂, hkeys₁.trans hkeys₂.symm, hkeys₁, hkeys₂⟩

/-- A template with a nested literal, filled in from cells of its own and from a constant and a
slot, and a literal that has a hole where the template has the nested literal. -/
theorem Literal.structure_of_template_nested :
    let f (name : String) (arguments : List Term) (annotations : List Literal) : Literal :=
      ⟨⟨.empty, name⟩, arguments, annotations, true, false⟩
    let x (name : String) : Term := .var (.unbound ⟨[name]⟩)
    let t := f "f" [x "X", .lit (f "g" [x "Y"] []), .raw (.int 2)] [f "source" [x "Z"] []]
    let c₁ : Context := ⟨[⟨⟨["X"]⟩, .free (some (.raw (.int 1)))⟩,
      ⟨⟨["Y"]⟩, .free (some (.raw .empty))⟩, ⟨⟨["Z"]⟩, .free (some (.raw (.text "a")))⟩]⟩
    let c₂ : Context := ⟨[⟨⟨["Z"]⟩, .mutex 0⟩, ⟨⟨["X"]⟩, .constant (.raw (.list []))⟩,
      ⟨⟨["Y"]⟩, .relocate ⟨["Z"]⟩ (some (.raw (.bool true)))⟩]⟩
    let s : Store := ⟨.empty, #[some (.raw (.int 1))]⟩
    (∃ g₁ g₂, c₁.ground .empty t = .ok g₁ ∧ c₂.ground s t = .ok g₂ ∧ g₁.SameKeys g₂ ∧
        g₁.SameKeys t ∧ g₂.SameKeys t) ∧
      ¬ t.SameForm (f "f" [x "X", x "Y", .raw (.int 2)] [f "source" [x "Z"] []]) := by
  intro f x t c₁ c₂ s
  obtain ⟨hkeys, hshape⟩ := Literal.structure_of_template
  constructor
  · apply hkeys
    · exact List.forall_mem_cons.2 ⟨⟨_, rfl⟩, List.forall_mem_cons.2 ⟨⟨_, rfl⟩,
        List.forall_mem_cons.2 ⟨⟨_, rfl⟩, List.forall_mem_nil _⟩⟩⟩
    · exact List.forall_mem_cons.2 ⟨⟨_, rfl⟩, List.forall_mem_cons.2 ⟨⟨_, rfl⟩,
        List.forall_mem_cons.2 ⟨⟨_, rfl⟩, List.forall_mem_nil _⟩⟩⟩
  · rw [← hshape]
    decide

end Deliberation
