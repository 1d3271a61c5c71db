import Deliberation.Proofs.Term.Equality
import Deliberation.Proofs.Term.Variables
import Deliberation.Proofs.Value.Unboxing

/-!
# Identity keys of terms

An identity key takes a box by its place, while equality looks at what is inside.
Where there are no boxes the key says all that equality sees, so that equality is
equality of keys.  What is put in the place of variables shows in the key through
arguments alone.
-/

namespace Deliberation

/-! ## Values without boxes -/

mutual

theorem Datum.marks_outline {β : Type} :
    ∀ v : Datum β, v.outline.marks = v.marks.map fun _ => ()
  | .empty => rfl
  | .bool _ => rfl
  | .int _ => rfl
  | .float _ => rfl
  | .text _ => rfl
  | .list items => Datum.marksAll_outline items
  | .box _ => rfl

theorem Datum.marksAll_outline {β : Type} :
    ∀ items : List (Datum β), Datum.marksAll (Datum.bindAll (fun _ => .box ()) items) =
      (Datum.marksAll items).map fun _ => ()
  | [] => rfl
  | item :: rest => by
      rw [Datum.bindAll, Datum.marksAll, Datum.marksAll, List.map_append,
        Datum.marksAll_outline rest]
      exact congrArg (· ++ _) (Datum.marks_outline item)

end

/-- Whether a value has boxes shows in its outline. -/
theorem Datum.marks_eq_nil_of_outline {v w : Value} (h : v.outline = w.outline)
    (hw : w.marks = []) : v.marks = [] := by
  have hmarks := congrArg Datum.marks h
  rw [Datum.marks_outline, Datum.marks_outline, hw] at hmarks
  exact List.map_eq_nil_iff.1 hmarks

/-- The outline of a value without boxes is all of it. -/
theorem Datum.outline_inj {v w : Value} (hv : v.marks = []) (hw : w.marks = []) :
    v.outline = w.outline ↔ v = w := by
  refine ⟨fun houtline => ?_, congrArg _⟩
  have hback := congrArg (Datum.bind fun _ => (.empty : Value)) houtline
  rwa [outline, outline, v.bind_bind_of_marks _ _ hv, w.bind_bind_of_marks _ _ hw] at hback

theorem Heap.equal_iff_outline (heap : Heap) {v w : Value} (hv : v.marks = [])
    (hw : w.marks = []) : heap.equal v w = true ↔ v.outline = w.outline := by
  rw [heap.equal_iff_of_marks hv hw, Datum.outline_inj hv hw]

/-! ## Terms without boxes -/

mutual

/-- The boxes in a term; the cells of variables are not searched. -/
def Term.boxes : Term → List BoxId
  | .raw v => v.marks
  | .var _ => []
  | .lit l => l.boxes

/-- The boxes in the arguments and annotations of a literal. -/
def Literal.boxes : Literal → List BoxId
  | ⟨_, arguments, annotations, _, _⟩ =>
      Term.boxesAll arguments ++ Literal.boxesAll annotations

def Term.boxesAll : List Term → List BoxId
  | [] => []
  | t :: rest => t.boxes ++ Term.boxesAll rest

def Literal.boxesAll : List Literal → List BoxId
  | [] => []
  | l :: rest => l.boxes ++ Literal.boxesAll rest

end

theorem Term.boxesAll_eq_nil_iff (ts : List Term) :
    Term.boxesAll ts = [] ↔ ∀ t ∈ ts, t.boxes = [] := by
  induction ts with
  | nil => simp [Term.boxesAll]
  | cons t rest ih => simp [Term.boxesAll, ih]

theorem Literal.boxesAll_eq_nil_iff (ls : List Literal) :
    Literal.boxesAll ls = [] ↔ ∀ l ∈ ls, l.boxes = [] := by
  induction ls with
  | nil => simp [Literal.boxesAll]
  | cons l rest ih => simp [Literal.boxesAll, ih]

theorem Literal.boxes_eq_nil_iff (l : Literal) :
    l.boxes = [] ↔ (∀ t ∈ l.arguments, t.boxes = []) ∧ ∀ a ∈ l.annotations, a.boxes = [] := by
  obtain ⟨functor, arguments, annotations, negated, marked⟩ := l
  rw [Literal.boxes, List.append_eq_nil_iff, Term.boxesAll_eq_nil_iff,
    Literal.boxesAll_eq_nil_iff]

/-- A literal without variables and boxes shows terms without boxes. -/
theorem Literal.Shows.boxes {s : Store} {l : Literal} {t : Term} (h : l.Shows s t)
    (hground : l.occurrences = []) (hboxes : l.boxes = []) : t.boxes = [] := by
  induction h with
  | argument ht =>
      rw [Term.resolve_of_ground (Literal.ground_of_mem_arguments hground ht)]
      exact ((Literal.boxes_eq_nil_iff _).1 hboxes).1 _ ht
  | resolved h ih =>
      rw [Term.resolve_of_ground (h.ground hground)]
      exact ih hground hboxes
  | nested ht hresolve h ih =>
      have hinside := ((Literal.boxes_eq_nil_iff _).1 hboxes).1 _ ht
      have ht := Literal.ground_of_mem_arguments hground ht
      rw [Term.resolve_of_ground ht] at hresolve
      rw [hresolve] at ht hinside
      exact ih ht hinside
  | annotated ha h ih =>
      exact ih (Literal.ground_of_mem_annotations hground ha)
        (((Literal.boxes_eq_nil_iff _).1 hboxes).2 _ ha)

/-- Where there are no boxes, equal terms have one key. -/
theorem Term.identity_of_equal {heap : Heap} {t u : Term} (ht : t.boxes = []) (hu : u.boxes = [])
    (h : t.equal heap u = true) : t.identity = u.identity := by
  cases t with
  | raw v =>
      cases u with
      | raw w => exact congrArg IdentityKey.value ((heap.equal_iff_outline ht hu).1 h)
      | var y => cases h
      | lit m => cases h
  | var x =>
      cases u with
      | raw w => cases h
      | var y => exact congrArg IdentityKey.var (of_decide_eq_true h)
      | lit m => cases h
  | lit l =>
      cases u with
      | raw w => cases h
      | var y => cases h
      | lit m => exact Literal.identity_of_equal h

theorem Literal.equal_of_identity (heap : Heap) {l m : Literal} (hm : m.boxes = [])
    (h : l.identity = m.identity) : l.equal heap m = true := by
  induction l using Literal.induction generalizing m with
  | step l harguments hannotations =>
      have hparts := (Literal.identity_eq_iff l m).1 h
      refine (Literal.equal_iff heap l m).2 ⟨hparts, ?_⟩
      have hkeys := hparts.2.2.2
      rw [Term.identityAll_eq, Term.identityAll_eq, ← List.forall₂_eq_eq_eq,
        List.forall₂_map_left_iff, List.forall₂_map_right_iff, List.forall₂_iff_zip] at hkeys
      rw [Term.equalAll_iff_forall₂, List.forall₂_iff_zip]
      refine ⟨hkeys.1, ?_⟩
      intro t u htu
      obtain ⟨ht, hu⟩ := List.of_mem_zip htu
      have hkey := hkeys.2 htu
      have hplain := ((Literal.boxes_eq_nil_iff m).1 hm).1 u hu
      cases t with
      | raw v =>
          cases u with
          | raw w =>
              -- only the right side is known to have no boxes; the outline tells it of the left
              have houtline := IdentityKey.value.inj hkey
              have hv := Datum.marks_eq_nil_of_outline houtline hplain
              exact (heap.equal_iff_outline hv hplain).2 houtline
          | var y => cases hkey
          | lit k => obtain ⟨⟩ := k; cases hkey
      | var x =>
          cases u with
          | raw w => cases hkey
          | var y => exact decide_eq_true (IdentityKey.var.inj hkey)
          | lit k => obtain ⟨⟩ := k; cases hkey
      | lit n =>
          cases u with
          | raw w => obtain ⟨⟩ := n; cases hkey
          | var y => obtain ⟨⟩ := n; cases hkey
          | lit k => exact harguments n ht hplain hkey

/-- To be equal to a literal without boxes is to have its key. -/
theorem Literal.equal_iff_identity (heap : Heap) {l m : Literal} (hm : m.boxes = []) :
    l.equal heap m = true ↔ l.identity = m.identity :=
  ⟨Literal.identity_of_equal, Literal.equal_of_identity heap hm⟩

/-! ## Replacing variables -/

/-- A literal equal to one without variables has none in its arguments. -/
theorem Literal.argumentVars_of_equal_ground {heap : Heap} {l m : Literal}
    (hequal : l.equal heap m = true) (hm : m.occurrences = []) : l.argumentVars = [] := by
  have hnames : l.argumentVars.map Variable.name = m.argumentVars.map Variable.name := by
    rw [← Literal.names_identity, ← Literal.names_identity, Literal.identity_of_equal hequal]
  have hnone : m.argumentVars = [] :=
    List.eq_nil_of_subset_nil (hm ▸ Literal.argumentVars_subset m)
  rw [hnone] at hnames
  exact List.map_eq_nil_iff.1 hnames

theorem Literal.substitute_var (l : Literal) : l.substitute .var = l := by
  induction l using Literal.induction with
  | step l harguments hannotations =>
      have hterms : ∀ t ∈ l.arguments, t.substitute .var = t := by
        intro t ht
        cases t with
        | raw v => rfl
        | var x => rfl
        | lit m => exact congrArg Term.lit (harguments m ht)
      rw [Literal.substitute_eq, List.map_congr_left hterms, List.map_congr_left hannotations,
        List.map_id', List.map_id']
      cases l
      rfl

/-- What replaces the variables shows in the key, as far as they are reached through arguments. -/
theorem Literal.identity_substitute_iff {f g : Variable → Term} (l : Literal) :
    (l.substitute f).identity = (l.substitute g).identity ↔
      ∀ x ∈ l.argumentVars, (f x).identity = (g x).identity := by
  induction l using Literal.induction with
  | step l harguments hannotations =>
      have hterms : ∀ t ∈ l.arguments, (t.substitute f).identity = (t.substitute g).identity ↔
          ∀ x ∈ t.argumentVars, (f x).identity = (g x).identity := by
        intro t ht
        cases t with
        | raw v => simp [Term.substitute, Term.argumentVars]
        | var x => simp [Term.substitute, Term.argumentVars]
        | lit m => exact harguments m ht
      rw [Literal.identity_eq_iff, Literal.substitute_eq, Literal.substitute_eq,
        Literal.argumentVars_eq]
      simp only [true_and, Term.identityAll_eq, List.map_map, List.map_inj_left,
        Function.comp_apply, List.mem_flatMap, forall_exists_index, and_imp]
      constructor
      · intro h x t ht hx
        exact (hterms t ht).1 (h t ht) x hx
      · intro h t ht
        exact (hterms t ht).2 fun x hx => h x t ht hx

theorem Literal.identity_substitute_of_closed {l : Literal} (h : l.argumentVars = [])
    (f : Variable → Term) : (l.substitute f).identity = l.identity := by
  have hsame : (l.substitute f).identity = (l.substitute .var).identity := by
    rw [Literal.identity_substitute_iff, h]
    exact fun _ hx => absurd hx List.not_mem_nil
  rwa [Literal.substitute_var] at hsame

end Deliberation
