import Deliberation.Proofs.Matching.Pairing
import Deliberation.Proofs.Term.Equality

/-!
# The exact match in front of the structural one

The exact match is tried first, and what it binds is final.  It compares
literals in arguments by equality, which looks neither into annotations nor
behind names.  Where the variables of a query show in arguments, such a literal
has none that the structural match would bind, and the two matches bind the same
variables; a variable in an annotation of a nested literal is passed over.
-/

namespace Deliberation

/-- The variables in the arguments of a literal and of its annotations, annotations inside these
left out. -/
def Literal.surfaceVars (l : Literal) : List Variable :=
  l.argumentVars ++ l.annotations.flatMap Literal.argumentVars

namespace Match

variable {s : Store}

/-! ## Equal literals -/

/--
A structural match of equal literals meets each variable at its own name.  It
fails there, unless the variable of the candidate is bound.
-/
theorem argumentVars_of_equal_walk {heap : Heap} {position : List Nat} {l m : Literal}
    {pairs : List Binding} (hwalk : walkLiteral s position l m = some pairs)
    (hequal : l.equal heap m = true)
    (hfree : ∀ z ∈ m.argumentVars, z.name ∈ l.argumentVars.map Variable.name →
      z.isBound s = false) : l.argumentVars = [] := by
  induction l using Literal.induction generalizing position m pairs with
  | step l harguments hannotations =>
      obtain ⟨-, front, back, hfront, -, -⟩ := walkLiteral_eq_some_iff.1 hwalk
      obtain ⟨hlength, hall⟩ := List.forall₂_iff_zip.1
        ((Term.equalAll_iff_forall₂ heap _ _).1 ((Literal.equal_iff heap l m).1 hequal).2)
      rw [Literal.argumentVars_eq, Literal.argumentVars_eq] at hfree
      rw [Literal.argumentVars_eq, List.flatMap_eq_nil_iff]
      intro t ht
      obtain ⟨u, htu⟩ := exists_mem_zip (Nat.le_of_eq hlength) ht
      have hu := (List.of_mem_zip htu).2
      have hequal := hall htu
      obtain ⟨_, _, hfound, -⟩ := walk_of_joinAll hfront htu
      rcases walkTerm_eq_some_iff.1 hfound with
        ⟨x, rfl, hbindable, -⟩ | ⟨v, w, rfl, -, -, -⟩ | ⟨k, n, rfl, hresolve, hinside⟩
      · cases u with
        | raw w => cases hequal
        | lit n => cases hequal
        | var z =>
            have hname : x.name = z.name := of_decide_eq_true hequal
            have hx : x ∈ l.arguments.flatMap Term.argumentVars :=
              List.mem_flatMap.2 ⟨_, ht, List.mem_cons_self⟩
            have hz := hfree z (List.mem_flatMap.2 ⟨_, hu, List.mem_cons_self⟩)
              (List.mem_map.2 ⟨x, hx, hname⟩)
            -- the candidate's variable stands for itself, and the check for its own name fails
            have hmentions := (bindable_iff.1 hbindable).2
            rw [Term.resolve_of_unbound hz] at hmentions
            simp [Term.mentions, Term.occurrences, hname] at hmentions
      · rfl
      · cases u with
        | raw w => cases hequal
        | var z => cases hequal
        | lit n' =>
            rw [Term.resolve_lit] at hresolve
            cases hresolve
            refine harguments k ht hinside hequal ?_
            intro z hz hname
            obtain ⟨x, hx, hname⟩ := List.mem_map.1 hname
            exact hfree z (List.mem_flatMap.2 ⟨_, hu, hz⟩)
              (List.mem_map.2 ⟨x, List.mem_flatMap.2 ⟨_, ht, hx⟩, hname⟩)

/-! ## Where both succeed -/

/-- Arguments that both matches accept have their variables at their own places only. -/
theorem argumentVars_eq_direct {position : List Nat} {index step place : Nat} {l m : Literal}
    (hlength : l.arity = m.arity) {walked paired : List Binding}
    (hwalk : joinAll 1 (fun i => walkTerm s (position ++ [i])) index l.arguments m.arguments =
      some walked)
    (hpair : joinAll step (pairTerm s) place l.arguments m.arguments = some paired)
    (hfree : ∀ n, m.Shows s (.lit n) → ∀ z ∈ n.argumentVars,
      z.name ∈ l.argumentVars.map Variable.name → z.isBound s = false) :
    l.argumentVars = l.arguments.flatMap Term.direct := by
  rw [Literal.argumentVars_eq] at hfree ⊢
  refine List.flatMap_congr ?_
  intro t ht
  obtain ⟨c, htc⟩ := exists_mem_zip (Nat.le_of_eq hlength) ht
  have hc := (List.of_mem_zip htc).2
  obtain ⟨_, _, hwalked, -⟩ := walk_of_joinAll hwalk htc
  obtain ⟨_, _, hpaired, -⟩ := walk_of_joinAll hpair htc
  rcases walkTerm_eq_some_iff.1 hwalked with
    ⟨x, rfl, -, -⟩ | ⟨v, w, rfl, -, -, -⟩ | ⟨k, n, rfl, hresolve, hwalked⟩
  · rfl
  · rfl
  · -- a nested literal: the exact match found it equal, the structural match went into it
    rcases pairTerm_eq_some_iff.1 hpaired with ⟨_, ⟨⟩, -⟩ | ⟨-, hequal, -⟩
    rw [hresolve] at hequal
    have hshown : m.Shows s (.lit n) := hresolve ▸ Literal.Shows.argument hc
    refine argumentVars_of_equal_walk hwalked hequal ?_
    intro z hz hname
    obtain ⟨x, hx, hname⟩ := List.mem_map.1 hname
    exact hfree n hshown z hz (List.mem_map.2 ⟨x, List.mem_flatMap.2 ⟨_, ht, hx⟩, hname⟩)

variable {query candidate : Literal}

theorem surfaceVars_eq_directVars {walked paired : List Binding}
    (hwalk : walkLiteral s [] query candidate = some walked)
    (hpair : exactPairs s query candidate = some paired)
    (hfree : ∀ n, candidate.Shows s (.lit n) → ∀ z ∈ n.argumentVars,
      z.name ∈ query.occurrences.map Variable.name → z.isBound s = false) :
    query.surfaceVars = query.directVars := by
  obtain ⟨houtline, _, _, hfront, hback, -⟩ := exactPairs_eq_some_iff.1 hpair
  obtain ⟨-, _, _, hfirst, hrest, -⟩ := walkLiteral_eq_some_iff.1 hwalk
  have harity := (sameOutline_iff.1 houtline).2.1
  have hcount := length_annotations_of_sameOutline houtline
  have hnames : ∀ {l : Literal}, l.occurrences ⊆ query.occurrences →
      ∀ {name}, name ∈ l.argumentVars.map Variable.name →
        name ∈ query.occurrences.map Variable.name := by
    intro l hl name hname
    obtain ⟨x, hx, rfl⟩ := List.mem_map.1 hname
    exact List.mem_map_of_mem (hl (l.argumentVars_subset hx))
  unfold Literal.surfaceVars Literal.directVars
  congr 1
  · refine argumentVars_eq_direct harity hfirst hfront ?_
    intro n hn z hz hname
    exact hfree n hn z hz (hnames (List.Subset.refl _) hname)
  · refine List.flatMap_congr ?_
    intro a ha
    obtain ⟨c, hac⟩ := exists_mem_zip (Nat.le_of_eq hcount) ha
    have hc := (List.of_mem_zip hac).2
    obtain ⟨_, _, hwalked, -⟩ := walk_of_joinAll hrest hac
    obtain ⟨-, _, _, hwalked, -, -⟩ := walkLiteral_eq_some_iff.1 hwalked
    obtain ⟨_, _, hpaired, -⟩ := walk_of_joinAll hback hac
    obtain ⟨⟨-, harity⟩, hpaired⟩ := pairAnnotated_eq_some_iff.1 hpaired
    refine argumentVars_eq_direct harity hwalked hpaired ?_
    intro n hn z hz hname
    exact hfree n (.annotated hc hn) z hz
      (hnames (Literal.occurrences_subset_of_mem_annotations ha) hname)

/--
A match that the structural match finds is not lost by trying the exact one
first: where every variable of the query shows in arguments, and no variable
that is bound in a literal of the candidate has its name, all variables of the
query are bound.
-/
theorem bind_binds_all_of_surface {b : BindingSet}
    (hsurface : ∀ x ∈ query.occurrences, ∃ y ∈ query.surfaceVars, y.name = x.name)
    (hfree : ∀ n, candidate.Shows s (.lit n) → ∀ z ∈ n.argumentVars,
      z.name ∈ query.occurrences.map Variable.name → z.isBound s = false)
    (h : structural s query candidate = some b) :
    ∃ b', bind s query candidate = some b' ∧
      (∀ x ∈ query.vars, (b'.get? x.name).isSome) ∧ b'.size = query.vars.length := by
  rw [structural_eq] at h
  obtain ⟨walked, hwalk, hwalked⟩ := Option.bind_eq_some_iff.1 h
  have hbound : ∀ {pairs : List Binding} {b' : BindingSet},
      (∀ name, name ∈ pairs.map Binding.name ↔ name ∈ query.occurrences.map Variable.name) →
      BindingSet.bindEach s .empty pairs = some b' →
      (∀ x ∈ query.vars, (b'.get? x.name).isSome) ∧ b'.size = query.vars.length := by
    intro pairs b' hnames hb'
    refine ⟨?_, BindingSet.size_eq_of_bindEach hb' hnames⟩
    intro x hx
    rw [BindingSet.get?_isSome_iff, BindingSet.mem_names_of_bindEach hb', hnames,
      ← Variable.mem_names_distinct]
    exact List.mem_map_of_mem hx
  cases hexact : exact s query candidate with
  | none =>
      refine ⟨b, ?_, hbound (fun name => by rw [names_walkLiteral hwalk]) hwalked⟩
      rw [bind, hexact, structural_eq]
      exact h
  | some b' =>
      refine ⟨b', by rw [bind, hexact], ?_⟩
      rw [exact_eq] at hexact
      obtain ⟨paired, hpair, hpaired⟩ := Option.bind_eq_some_iff.1 hexact
      refine hbound ?_ hpaired
      intro name
      rw [names_exactPairs hpair]
      constructor
      · intro hname
        obtain ⟨x, hx, rfl⟩ := List.mem_map.1 hname
        exact List.mem_map_of_mem (query.directVars_subset hx)
      · intro hname
        obtain ⟨x, hx, rfl⟩ := List.mem_map.1 hname
        obtain ⟨y, hy, hname⟩ := hsurface x hx
        rw [surfaceVars_eq_directVars hwalk hpair hfree] at hy
        exact List.mem_map.2 ⟨y, hy, hname⟩

/-- A literal in an argument is compared, and the variables beside it are bound. -/
theorem bind_binds_all_beside_nested :
    let f (name : String) (arguments : List Term) (annotations : List Literal) : Literal :=
      ⟨⟨.empty, name⟩, arguments, annotations, false, false⟩
    let x (name : String) : Term := .var (.unbound ⟨[name]⟩)
    let nested : Term := .lit (f "g" [.raw (.int 1)] [])
    let query := f "f" [x "X", nested] [f "source" [x "Y"] []]
    let candidate := f "f" [.raw (.int 2), nested] [f "source" [.raw (.int 3)] []]
    ∃ b, bind .empty query candidate = some b ∧
      (∀ y ∈ query.vars, (b.get? y.name).isSome) ∧ b.size = query.vars.length := by
  intro f x nested query candidate
  have hground : candidate.occurrences = [] := rfl
  have hsurface : ∀ y ∈ query.occurrences, ∃ z ∈ query.surfaceVars, z.name = y.name :=
    fun y hy => ⟨y, hy, rfl⟩
  have hfree : ∀ n, candidate.Shows .empty (.lit n) → ∀ z ∈ n.argumentVars,
      z.name ∈ query.occurrences.map Variable.name → z.isBound .empty = false := by
    intro n hn z hz
    have hz := n.argumentVars_subset hz
    rw [show n.occurrences = [] from hn.ground hground] at hz
    cases hz
  obtain ⟨b, hb⟩ : ∃ b, structural .empty query candidate = some b :=
    Option.isSome_iff_exists.1 (by decide +kernel)
  exact bind_binds_all_of_surface hsurface hfree hb

/--
A variable in an annotation of a nested literal is bound by the structural match
and hidden by the exact one, which is final.
-/
theorem bind_hides_nested_annotations :
    let f (name : String) (arguments : List Term) (annotations : List Literal) : Literal :=
      ⟨⟨.empty, name⟩, arguments, annotations, false, false⟩
    let nested (inside : Term) : Term := .lit (f "g" [.raw (.int 1)] [f "a" [inside] []])
    let query := f "f" [nested (.var (.unbound ⟨["X"]⟩))] []
    let candidate := f "f" [nested (.raw (.int 2))] []
    (∃ b, structural .empty query candidate = some b ∧ b.size = query.vars.length) ∧
      ∃ b, bind .empty query candidate = some b ∧ b.get? ⟨["X"]⟩ = none ∧
        b.size < query.vars.length := by
  intro f nested query candidate
  exact ⟨⟨_, rfl, rfl⟩, _, rfl, rfl, by decide⟩

end Match

end Deliberation
