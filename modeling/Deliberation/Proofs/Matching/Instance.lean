import Deliberation.Proofs.Matching.Pairing
import Deliberation.Proofs.Term.Identity

/-!
# Instances

A literal is an instance of a query when terms can be put in the place of the
query's variables so that the two have the same functors, flags of negation and
numbers of arguments at every level and equal values in every place.  Of the
annotations the query may name a first few.  A literal without variables is an
instance of a query exactly when the structural match succeeds, and the exact
match finds instances only.
-/

namespace Deliberation

mutual

/-- Whether a candidate is a term with the terms that `σ` gives in the place of variables. -/
def Term.Fits (heap : Heap) (σ : Path → Term) : Term → Term → Prop
  | .raw v, candidate => (Term.raw v).equal heap candidate = true
  | .var x, candidate => (σ x.name).equal heap candidate = true
  | .lit l, candidate => ∃ m, candidate = .lit m ∧ l.Fits heap σ m
termination_by structural query => query

def Literal.Fits (heap : Heap) (σ : Path → Term) : Literal → Literal → Prop
  | ⟨functor, arguments, annotations, negated, _⟩, candidate =>
      functor = candidate.functor ∧ negated = candidate.negated ∧
        Term.FitAll heap σ arguments candidate.arguments ∧
        Literal.FitFirst heap σ annotations candidate.annotations
termination_by structural query => query

/-- Whether terms fit one by one. -/
def Term.FitAll (heap : Heap) (σ : Path → Term) : List Term → List Term → Prop
  | [], candidates => candidates = []
  | _ :: _, [] => False
  | q :: qs, c :: cs => q.Fits heap σ c ∧ Term.FitAll heap σ qs cs
termination_by structural queries => queries

/-- Whether literals fit those at the front of a list. -/
def Literal.FitFirst (heap : Heap) (σ : Path → Term) : List Literal → List Literal → Prop
  | [], _ => True
  | _ :: _, [] => False
  | q :: qs, c :: cs => q.Fits heap σ c ∧ Literal.FitFirst heap σ qs cs
termination_by structural queries => queries

end

/-- Whether a literal comes from a query by putting terms in the place of its variables. -/
def Literal.IsInstance (heap : Heap) (query candidate : Literal) : Prop :=
  ∃ σ, query.Fits heap σ candidate

theorem Term.fitAll_iff {heap : Heap} {σ : Path → Term} {queries candidates : List Term} :
    Term.FitAll heap σ queries candidates ↔ queries.length = candidates.length ∧
      ∀ q c, (q, c) ∈ queries.zip candidates → q.Fits heap σ c := by
  induction queries generalizing candidates with
  | nil => cases candidates <;> simp [Term.FitAll]
  | cons q qs ih =>
      cases candidates with
      | nil => simp [Term.FitAll]
      | cons c cs => simp [Term.FitAll, ih, forall_and, or_imp, and_left_comm]

theorem Literal.fitFirst_iff {heap : Heap} {σ : Path → Term} {queries candidates : List Literal} :
    Literal.FitFirst heap σ queries candidates ↔ queries.length ≤ candidates.length ∧
      ∀ q c, (q, c) ∈ queries.zip candidates → q.Fits heap σ c := by
  induction queries generalizing candidates with
  | nil => simp [Literal.FitFirst]
  | cons q qs ih =>
      cases candidates with
      | nil => simp [Literal.FitFirst]
      | cons c cs => simp [Literal.FitFirst, ih, forall_and, or_imp, and_left_comm]

theorem Literal.fits_iff {heap : Heap} {σ : Path → Term} {query candidate : Literal} :
    query.Fits heap σ candidate ↔
      (query.functor = candidate.functor ∧ query.negated = candidate.negated ∧
        query.arity = candidate.arity ∧
        query.annotations.length ≤ candidate.annotations.length) ∧
      (∀ q c, (q, c) ∈ query.arguments.zip candidate.arguments → q.Fits heap σ c) ∧
      ∀ q c, (q, c) ∈ query.annotations.zip candidate.annotations → q.Fits heap σ c := by
  obtain ⟨functor, arguments, annotations, negated, marked⟩ := query
  rw [Literal.Fits, Term.fitAll_iff, Literal.fitFirst_iff, Literal.arity, Literal.arity]
  tauto

/-! ## Literals without variables -/

section Ground

variable {heap : Heap} {σ : Path → Term}

/-- Equal literals without variables fit whatever is put in the place of variables. -/
theorem Literal.fits_of_equal {l m : Literal} (hbare : l.isBare = true)
    (hground : m.occurrences = []) (hequal : l.equal heap m = true) : l.Fits heap σ m := by
  induction l using Literal.induction generalizing m with
  | step l harguments hannotations =>
      obtain ⟨hnone, hbare⟩ := l.isBare_iff.1 hbare
      obtain ⟨⟨hfunctor, hnegated, -, -⟩, hequal⟩ := (Literal.equal_iff heap l m).1 hequal
      obtain ⟨hlength, hequal⟩ :=
        List.forall₂_iff_zip.1 ((Term.equalAll_iff_forall₂ heap _ _).1 hequal)
      rw [Literal.fits_iff, hnone]
      refine ⟨⟨hfunctor, hnegated, hlength, Nat.zero_le _⟩, ?_, ?_⟩
      · intro t c htc
        obtain ⟨ht, hc⟩ := List.of_mem_zip htc
        have hc := Literal.ground_of_mem_arguments hground hc
        have hequal := hequal htc
        cases t with
        | raw v => exact hequal
        | var x =>
            cases c with
            | raw w => cases hequal
            | var y => cases hc
            | lit k => cases hequal
        | lit k =>
            cases c with
            | raw w => cases hequal
            | var y => cases hc
            | lit n => exact ⟨n, rfl, harguments k ht (hbare _ ht) hc hequal⟩
      · intro q c hqc
        cases hqc

theorem Term.fits_of_equal {t c : Term} (hbare : t.isBare = true) (hground : c.occurrences = [])
    (hequal : t.equal heap c = true) : t.Fits heap σ c := by
  cases t with
  | raw v => exact hequal
  | var x =>
      cases c with
      | raw w => cases hequal
      | var y => cases hground
      | lit m => cases hequal
  | lit l =>
      cases c with
      | raw w => cases hequal
      | var y => cases hground
      | lit m => exact ⟨m, rfl, Literal.fits_of_equal hbare hground hequal⟩

theorem exists_of_mem_zip_map {α β γ : Type} {f : α → β} {items : List α} {others : List γ} {b : β}
    {c : γ} (h : (b, c) ∈ (items.map f).zip others) : ∃ a, (a, c) ∈ items.zip others ∧ f a = b := by
  rw [List.zip_map_left, List.mem_map] at h
  obtain ⟨⟨a, d⟩, had, heq⟩ := h
  cases heq
  exact ⟨a, had, rfl⟩

/-- A query with terms that fit in the place of its variables fits as well. -/
theorem Literal.fits_substitute {τ : Path → Term} {f : Variable → Term} {l m : Literal}
    (hground : m.occurrences = [])
    (hf : ∀ x ∈ l.occurrences, (f x).isBare = true ∧ σ x.name = f x)
    (h : l.Fits heap σ m) : (l.substitute f).Fits heap τ m := by
  induction l using Literal.induction generalizing m with
  | step l harguments hannotations =>
      obtain ⟨⟨hfunctor, hnegated, harity, hfewer⟩, hterms, hliterals⟩ := Literal.fits_iff.1 h
      rw [Literal.substitute_eq, Literal.fits_iff]
      refine ⟨⟨hfunctor, hnegated, ?_, ?_⟩, ?_, ?_⟩
      · rw [← harity]
        exact List.length_map _
      · rwa [List.length_map]
      · intro q c hqc
        obtain ⟨t, htc, rfl⟩ := exists_of_mem_zip_map hqc
        obtain ⟨ht, hc⟩ := List.of_mem_zip htc
        have hc := Literal.ground_of_mem_arguments hground hc
        have hfits := hterms t c htc
        have hinside : ∀ x ∈ t.occurrences, (f x).isBare = true ∧ σ x.name = f x :=
          fun x hx => hf x (Literal.occurrences_subset_of_mem_arguments ht hx)
        cases t with
        | raw v => exact hfits
        | var x =>
            obtain ⟨hbare, hvalue⟩ := hinside x List.mem_cons_self
            rw [Term.Fits, hvalue] at hfits
            exact Term.fits_of_equal hbare hc hfits
        | lit k =>
            obtain ⟨n, rfl, hfits⟩ := hfits
            exact ⟨n, rfl, harguments k ht hc hinside hfits⟩
      · intro q c hqc
        obtain ⟨a, hac, rfl⟩ := exists_of_mem_zip_map hqc
        obtain ⟨ha, hc⟩ := List.of_mem_zip hac
        refine hannotations a ha (Literal.ground_of_mem_annotations hground hc) ?_
          (hliterals a c hac)
        intro x hx
        exact hf x (Literal.occurrences_subset_of_mem_annotations ha hx)

end Ground

/-! ## Pairs that agree with a substitution -/

namespace Match

/-- Whether a walk succeeds with pairs that `σ` gives. -/
def Admits (s : Store) (σ : Path → Term) (walk : Option (List Binding)) : Prop :=
  ∃ pairs, walk = some pairs ∧
    ∀ pair ∈ pairs, (σ pair.name).equal s.heap (pair.value.resolve s) = true

variable {s : Store} {σ : Path → Term}

@[simp] theorem admits_none : ¬Admits s σ none := by
  rintro ⟨_, h, _⟩
  cases h

@[simp] theorem admits_nil : Admits s σ (some []) := ⟨[], rfl, by simp⟩

@[simp] theorem admits_singleton (pair : Binding) :
    Admits s σ (some [pair]) ↔ (σ pair.name).equal s.heap (pair.value.resolve s) = true := by
  simp [Admits]

@[simp] theorem admits_ite {condition : Prop} [Decidable condition]
    (walk : Option (List Binding)) :
    Admits s σ (if condition then walk else none) ↔ condition ∧ Admits s σ walk := by
  by_cases h : condition <;> simp [h]

@[simp] theorem admits_join (first second : Option (List Binding)) :
    Admits s σ (join first second) ↔ Admits s σ first ∧ Admits s σ second := by
  constructor
  · rintro ⟨pairs, hpairs, hagree⟩
    obtain ⟨front, back, hfront, hback, rfl⟩ := join_eq_some_iff.1 hpairs
    exact ⟨⟨front, hfront, fun pair hpair => hagree pair (List.mem_append_left _ hpair)⟩,
      ⟨back, hback, fun pair hpair => hagree pair (List.mem_append_right _ hpair)⟩⟩
  · rintro ⟨⟨front, rfl, hfront⟩, ⟨back, rfl, hback⟩⟩
    refine ⟨front ++ back, rfl, ?_⟩
    intro pair hpair
    rcases List.mem_append.1 hpair with hpair | hpair
    · exact hfront pair hpair
    · exact hback pair hpair

/-- Walks through two lists give the pairs of a substitution when each walk does. -/
theorem admits_joinAll {α β : Type} {step place : Nat}
    {walk : Nat → α → β → Option (List Binding)} {queries : List α} {candidates : List β}
    {R : α → β → Prop}
    (hwalk : ∀ q c, (q, c) ∈ queries.zip candidates → ∀ index,
      Admits s σ (walk index q c) ↔ R q c) :
    Admits s σ (joinAll step walk place queries candidates) ↔
      ∀ q c, (q, c) ∈ queries.zip candidates → R q c := by
  induction queries generalizing place candidates with
  | nil => simp [joinAll]
  | cons r rs ih =>
      cases candidates with
      | nil => simp [joinAll]
      | cons d ds =>
          have hfirst := hwalk r d List.mem_cons_self place
          have hrest := @ih (place + step) ds fun q c hqc => hwalk q c (List.mem_cons_of_mem _ hqc)
          simp [joinAll, hfirst, hrest, forall_and, or_imp]

/-! ### The structural walk -/

theorem bindable_of_ground {c : Term} (hground : c.occurrences = []) (name : Path) :
    bindable s name c = true := by
  refine bindable_iff.2 ⟨?_, by rw [Term.mentions, hground]; rfl⟩
  cases c with
  | var x => cases hground
  | _ => rfl

/-- The structural walk succeeds on the candidates that fit, with pairs as the fit has them. -/
theorem admits_walkLiteral {position : List Nat} {query candidate : Literal}
    (hground : candidate.occurrences = []) :
    Admits s σ (walkLiteral s position query candidate) ↔ query.Fits s.heap σ candidate := by
  induction query using Literal.induction generalizing position candidate with
  | step query harguments hannotations =>
      have hterms : ∀ t c, (t, c) ∈ query.arguments.zip candidate.arguments → ∀ index,
          Admits s σ (walkTerm s (position ++ [index]) t c) ↔ t.Fits s.heap σ c := by
        intro t c htc index
        obtain ⟨ht, hc⟩ := List.of_mem_zip htc
        have hc := Literal.ground_of_mem_arguments hground hc
        cases t with
        | var x =>
            simp [walkTerm, Term.resolve_of_ground hc, bindable_of_ground hc, Term.Fits]
        | raw v =>
            rw [walkTerm, Term.resolve_of_ground hc]
            cases c with
            | raw w => simp [Term.Fits, Term.equal]
            | var y => cases hc
            | lit l => simp [Term.Fits, Term.equal]
        | lit l =>
            rw [walkTerm, Term.resolve_of_ground hc]
            cases c with
            | raw w => simp [Term.Fits]
            | var y => cases hc
            | lit m => simp [Term.Fits, harguments l ht (show m.occurrences = [] from hc)]
      have hliterals : ∀ a c, (a, c) ∈ query.annotations.zip candidate.annotations → ∀ index,
          Admits s σ (walkLiteral s (position ++ [index]) a c) ↔ a.Fits s.heap σ c := by
        intro a c hac index
        obtain ⟨ha, hc⟩ := List.of_mem_zip hac
        exact hannotations a ha (Literal.ground_of_mem_annotations hground hc)
      rw [walkLiteral_eq, admits_ite, admits_join, admits_joinAll hterms, admits_joinAll hliterals,
        sameHead_iff, Literal.fits_iff]
      tauto

/-! ### The exact walk -/

theorem fits_of_pairTerm {position : Nat} {t c : Term} {found : List Binding}
    (hbare : t.isBare = true) (hground : c.occurrences = [])
    (h : pairTerm s position t c = some found)
    (hagree : ∀ pair ∈ found, (σ pair.name).equal s.heap (pair.value.resolve s) = true) :
    t.Fits s.heap σ c := by
  rcases pairTerm_eq_some_iff.1 h with ⟨x, rfl, rfl⟩ | ⟨-, hequal, -⟩
  · have hvalue := hagree _ List.mem_cons_self
    rwa [Term.resolve_of_ground hground] at hvalue
  · rw [Term.resolve_of_ground hground] at hequal
    exact Term.fits_of_equal hbare hground hequal

/-- The negation flags of annotations are compared with the shapes only. -/
theorem negated_of_annotationShapes {query candidate a c : Literal}
    (h : query.annotationShapes = candidate.annotationShapes)
    (hac : (a, c) ∈ query.annotations.zip candidate.annotations) : a.negated = c.negated := by
  have hshapes : List.Forall₂ (· = ·) query.annotationShapes candidate.annotationShapes := by
    rw [List.forall₂_eq_eq_eq]
    exact h
  rw [Literal.annotationShapes, Literal.annotationShapes, List.forall₂_map_left_iff,
    List.forall₂_map_right_iff] at hshapes
  have hshape := (List.forall₂_iff_zip.1 hshapes).2 hac
  obtain ⟨⟩ := a
  obtain ⟨⟩ := c
  exact (StructureKey.literal.inj hshape).2.1

/-- What the exact match pairs is a fit, once the functors agree. -/
theorem fits_of_exactPairs {query candidate : Literal} {pairs : List Binding}
    (hfunctor : query.functor = candidate.functor) (hflat : query.isFlat = true)
    (hground : candidate.occurrences = []) (h : exactPairs s query candidate = some pairs)
    (hagree : ∀ pair ∈ pairs, (σ pair.name).equal s.heap (pair.value.resolve s) = true) :
    query.Fits s.heap σ candidate := by
  obtain ⟨harguments, hannotations⟩ := query.isFlat_iff.1 hflat
  obtain ⟨houtline, front, back, hfront, hback, rfl⟩ := exactPairs_eq_some_iff.1 h
  obtain ⟨hnegated, harity, -, hshapes⟩ := sameOutline_iff.1 houtline
  have hcount := length_annotations_of_sameOutline houtline
  rw [Literal.fits_iff]
  refine ⟨⟨hfunctor, hnegated, harity, Nat.le_of_eq hcount⟩, ?_, ?_⟩
  · intro t c htc
    obtain ⟨ht, hc⟩ := List.of_mem_zip htc
    obtain ⟨_, found, hfound, hsubset⟩ := walk_of_joinAll hfront htc
    refine fits_of_pairTerm (harguments t ht) (Literal.ground_of_mem_arguments hground hc) hfound ?_
    intro pair hpair
    exact hagree pair (List.mem_append_left _ (hsubset hpair))
  · intro a c hac
    obtain ⟨ha, hc⟩ := List.of_mem_zip hac
    obtain ⟨_, found, hfound, hsubset⟩ := walk_of_joinAll hback hac
    obtain ⟨⟨hfunctor, harity⟩, hfound⟩ := pairAnnotated_eq_some_iff.1 hfound
    obtain ⟨hnone, hinside⟩ := a.isBare_iff.1 (hannotations a ha)
    have hc := Literal.ground_of_mem_annotations hground hc
    rw [Literal.fits_iff, hnone]
    refine ⟨⟨hfunctor, negated_of_annotationShapes hshapes hac, harity, Nat.zero_le _⟩, ?_, ?_⟩
    · intro t d htd
      obtain ⟨ht, hd⟩ := List.of_mem_zip htd
      obtain ⟨_, inner, hinner, hinnerSubset⟩ := walk_of_joinAll hfound htd
      refine fits_of_pairTerm (hinside t ht) (Literal.ground_of_mem_arguments hc hd) hinner ?_
      intro pair hpair
      exact hagree pair (List.mem_append_right _ (hsubset (hinnerSubset hpair)))
    · intro q d hqd
      cases hqd

end Match

/-! ## Binding the pairs -/

namespace BindingSet

variable {s : Store} {σ : Path → Term} {pairs : List Binding} {b after : BindingSet}

/-- Pairs that one substitution gives can be bound. -/
theorem isSome_bindEach
    (hsettled : ∀ pair ∈ pairs, (pair.value.resolve s).resolve s = pair.value.resolve s)
    (hagree : ∀ pair ∈ pairs, (σ pair.name).equal s.heap (pair.value.resolve s) = true)
    (hb : ∀ binding ∈ b.bindings, binding.value.resolve s = binding.value ∧
      (σ binding.name).equal s.heap binding.value = true) :
    (bindEach s b pairs).isSome := by
  -- All that is bound under a name has the content that `σ` gives to the name.
  induction pairs generalizing b with
  | nil => rfl
  | cons pair rest ih =>
      rw [List.forall_mem_cons] at hsettled hagree
      obtain ⟨middle, hbind, hmiddle⟩ : ∃ middle,
          b.bind s pair.name pair.value pair.position = some middle ∧
          ∀ binding ∈ middle.bindings, binding.value.resolve s = binding.value ∧
            (σ binding.name).equal s.heap binding.value = true := by
        cases hknown : b.get? pair.name with
        | none =>
            refine ⟨_, bind_eq_some_iff.2 (Or.inr ⟨hknown, rfl⟩), ?_⟩
            intro binding hbinding
            rcases List.mem_append.1 hbinding with hold | hnew
            · exact hb binding hold
            · rw [List.mem_singleton.1 hnew]
              exact ⟨hsettled.1, hagree.1⟩
        | some known =>
            obtain ⟨binding, hbinding, hname, rfl⟩ := exists_of_get? hknown
            obtain ⟨hvalue, hsame⟩ := hb binding hbinding
            have hequal : (binding.value.resolve s).equal s.heap (pair.value.resolve s) = true := by
              rw [hvalue, Term.equal_iff_content s.heap]
              rw [hname, Term.equal_iff_content s.heap] at hsame
              exact hsame.symm.trans ((Term.equal_iff_content s.heap _ _).1 hagree.1)
            exact ⟨b, bind_eq_some_iff.2 (Or.inl ⟨_, hknown, hequal, rfl⟩), hb⟩
      rw [bindEach, hbind]
      exact ih hsettled.2 hagree.2 hmiddle

/-- Bindings made of pairs give the pairs back. -/
theorem agree_of_bindEach
    (hsettled : ∀ pair ∈ pairs, (pair.value.resolve s).resolve s = pair.value.resolve s)
    (h : bindEach s .empty pairs = some after) :
    ∀ pair ∈ pairs, (after.substitution pair.name).equal s.heap (pair.value.resolve s) = true := by
  intro pair hpair
  obtain ⟨t, ht, hvalue⟩ := agrees_of_bindEach h hpair
  rw [substitution_of_get? ht]
  rcases hvalue with rfl | hequal
  · exact (Term.equal_iff_content s.heap _ _).2 rfl
  · have hvalue : t.resolve s = t :=
      forall_of_bindEach (P := fun t => t.resolve s = t) hsettled h ht
    rwa [hvalue] at hequal

end BindingSet

/-! ## Matching literals without variables -/

namespace Match

open BindingSet (bindEach)

/-- A binding set that makes a candidate out of a query and binds nothing else. -/
structure Solves (s : Store) (query candidate : Literal) (b : BindingSet) : Prop where
  fits : query.Fits s.heap b.substitution candidate
  mem_names : ∀ name, name ∈ b.names ↔ name ∈ query.occurrences.map Variable.name
  nodup : b.names.Nodup
  size : b.size = query.vars.length
  shown : ∀ {name t}, b.get? name = some t → candidate.Shows s t

variable {s : Store} {query candidate : Literal} {b : BindingSet}

theorem solves_of_bindEach (hground : candidate.occurrences = [])
    {pairs : List Binding}
    (hfits : ∀ σ : Path → Term,
      (∀ pair ∈ pairs, (σ pair.name).equal s.heap (pair.value.resolve s) = true) →
        query.Fits s.heap σ candidate)
    (hnames : pairs.map Binding.name = query.occurrences.map Variable.name)
    (hshown : ∀ pair ∈ pairs, candidate.Shows s (pair.value.resolve s))
    (h : bindEach s .empty pairs = some b) : Solves s query candidate b where
  fits := by
    refine hfits _ (BindingSet.agree_of_bindEach ?_ h)
    intro pair hpair
    exact Term.resolve_of_ground ((hshown pair hpair).ground hground) s
  mem_names name := by rw [BindingSet.mem_names_of_bindEach h, hnames]
  nodup := BindingSet.nodup_names_of_bindEach h List.nodup_nil
  size := BindingSet.size_eq_of_bindEach h fun name => by rw [hnames]
  shown ht := BindingSet.forall_of_bindEach hshown h ht

theorem solves_of_structural (hground : candidate.occurrences = [])
    (h : structural s query candidate = some b) : Solves s query candidate b := by
  obtain ⟨pairs, hwalk, hbind⟩ := pairs_of_structural h
  refine solves_of_bindEach hground ?_ (names_walkLiteral hwalk)
    (shows_of_walkLiteral hwalk) hbind
  intro σ hagree
  exact (admits_walkLiteral hground).1 ⟨pairs, hwalk, hagree⟩

/-- The structural match succeeds on every instance. -/
theorem isSome_structural_of_isInstance (hground : candidate.occurrences = [])
    (h : query.IsInstance s.heap candidate) :
    (structural s query candidate).isSome := by
  obtain ⟨σ, hfits⟩ := h
  obtain ⟨pairs, hwalk, hagree⟩ := (admits_walkLiteral hground).2 hfits
  rw [structural_eq, hwalk]
  refine BindingSet.isSome_bindEach ?_ hagree ?_
  · intro pair hpair
    exact Term.resolve_of_ground ((shows_of_walkLiteral hwalk pair hpair).ground hground) s
  · exact fun _ hbinding => absurd hbinding List.not_mem_nil

/-- A literal that is equal to one without variables has none itself. -/
theorem occurrences_eq_direct {position : Nat} {t c : Term} {found : List Binding}
    (hbare : t.isBare = true) (hground : c.occurrences = [])
    (h : pairTerm s position t c = some found) : t.occurrences = t.direct := by
  rcases pairTerm_eq_some_iff.1 h with ⟨x, rfl, -⟩ | ⟨hdirect, hequal, -⟩
  · rfl
  · rw [Term.resolve_of_ground hground] at hequal
    cases t with
    | raw v => rfl
    | var x => rfl
    | lit l =>
        cases c with
        | raw w => cases hequal
        | var y => cases hground
        | lit m =>
            exact (Literal.occurrences_of_isBare hbare).trans
              (Literal.argumentVars_of_equal_ground hequal hground)

/-- Where the exact match succeeds on a literal without variables, it binds all variables. -/
theorem occurrences_eq_directVars (hflat : query.isFlat = true)
    (hground : candidate.occurrences = []) {pairs : List Binding}
    (h : exactPairs s query candidate = some pairs) : query.occurrences = query.directVars := by
  obtain ⟨harguments, hannotations⟩ := query.isFlat_iff.1 hflat
  obtain ⟨houtline, front, back, hfront, hback, -⟩ := exactPairs_eq_some_iff.1 h
  have harity := (sameOutline_iff.1 houtline).2.1
  have hcount := length_annotations_of_sameOutline houtline
  rw [Literal.occurrences_eq, Literal.directVars]
  congr 1
  · refine List.flatMap_congr ?_
    intro t ht
    obtain ⟨c, htc⟩ := exists_mem_zip (Nat.le_of_eq harity) ht
    obtain ⟨_, _, hfound, -⟩ := walk_of_joinAll hfront htc
    exact occurrences_eq_direct (harguments t ht)
      (Literal.ground_of_mem_arguments hground (List.of_mem_zip htc).2) hfound
  · refine List.flatMap_congr ?_
    intro a ha
    obtain ⟨c, hac⟩ := exists_mem_zip (Nat.le_of_eq hcount) ha
    have hc := Literal.ground_of_mem_annotations hground (List.of_mem_zip hac).2
    obtain ⟨_, _, hfound, -⟩ := walk_of_joinAll hback hac
    obtain ⟨⟨-, harity⟩, hfound⟩ := pairAnnotated_eq_some_iff.1 hfound
    obtain ⟨hnone, hinside⟩ := a.isBare_iff.1 (hannotations a ha)
    rw [Literal.occurrences_eq, hnone, List.flatMap_nil, List.append_nil]
    refine List.flatMap_congr ?_
    intro t ht
    obtain ⟨d, htd⟩ := exists_mem_zip (Nat.le_of_eq harity) ht
    obtain ⟨_, _, hfound, -⟩ := walk_of_joinAll hfound htd
    exact occurrences_eq_direct (hinside t ht)
      (Literal.ground_of_mem_arguments hc (List.of_mem_zip htd).2) hfound

theorem solves_of_exact (hflat : query.isFlat = true)
    (hground : candidate.occurrences = []) (hfunctor : query.functor = candidate.functor)
    (h : exact s query candidate = some b) : Solves s query candidate b := by
  rw [exact_eq] at h
  obtain ⟨pairs, hpairs, hbind⟩ := Option.bind_eq_some_iff.1 h
  have hnames := names_exactPairs hpairs
  rw [← occurrences_eq_directVars hflat hground hpairs] at hnames
  refine solves_of_bindEach hground ?_ hnames (shows_of_exactPairs hpairs) hbind
  intro σ hagree
  exact fits_of_exactPairs hfunctor hflat hground hpairs hagree

namespace Solves

theorem isInstance (h : Solves s query candidate b) : query.IsInstance s.heap candidate :=
  ⟨_, h.fits⟩

/-- With its bindings put in, the query has no variables and is still matched. -/
theorem substitute (h : Solves s query candidate b) (hground : candidate.occurrences = [])
    (hflat : candidate.isFlat = true) {f : Variable → Term}
    (hf : ∀ x ∈ query.occurrences, b.get? x.name = some (f x)) :
    (query.substitute f).occurrences = [] ∧
      (query.substitute f).IsInstance s.heap candidate := by
  constructor
  · rw [Literal.occurrences_substitute, List.flatMap_eq_nil_iff]
    intro x hx
    exact (h.shown (hf x hx)).ground hground
  · refine ⟨b.substitution, Literal.fits_substitute hground ?_ h.fits⟩
    intro x hx
    rw [BindingSet.substitution, hf x hx]
    exact ⟨(h.shown (hf x hx)).isBare hground hflat, rfl⟩

end Solves

end Match

end Deliberation
