import Deliberation.Proofs.Matching.Pairing
import Deliberation.Proofs.Term.Identity

/-!
# What a match restores

The terms that a match binds, put in the place of the query's variables, give
the candidate back: its functors, flags and values, as equality of literals sees
them.  Neither match asks for the functor of the whole literal or for at marks in
nested literals, so these have to agree beforehand.
-/

namespace Deliberation

/-! ## At marks -/

mutual

/-- Whether literals in the same place of two terms have the same at mark. -/
def Term.markedAlike : Term → Term → Bool
  | .lit l, .lit m => l.markedAlike m
  | _, _ => true
termination_by structural t => t

/-- Whether two literals have the same at mark, and all literals in their arguments have. -/
def Literal.markedAlike : Literal → Literal → Bool
  | ⟨_, arguments, _, _, marked⟩, m =>
      marked == m.marked && Term.allMarkedAlike arguments m.arguments
termination_by structural l => l

def Term.allMarkedAlike : List Term → List Term → Bool
  | t :: ts, u :: us => t.markedAlike u && Term.allMarkedAlike ts us
  | _, _ => true
termination_by structural ts => ts

end

theorem Term.allMarkedAlike_iff {ts us : List Term} :
    Term.allMarkedAlike ts us = true ↔
      ∀ t u, (t, u) ∈ ts.zip us → t.markedAlike u = true := by
  induction ts generalizing us with
  | nil => simp [Term.allMarkedAlike]
  | cons t rest ih =>
      cases us with
      | nil => simp [Term.allMarkedAlike]
      | cons u us => simp [Term.allMarkedAlike, ih, forall_and, or_imp]

theorem Literal.markedAlike_iff {l m : Literal} :
    l.markedAlike m = true ↔ l.marked = m.marked ∧
      ∀ t u, (t, u) ∈ l.arguments.zip m.arguments → t.markedAlike u = true := by
  obtain ⟨functor, arguments, annotations, negated, marked⟩ := l
  rw [Literal.markedAlike, Bool.and_eq_true, beq_iff_eq, Term.allMarkedAlike_iff]

/-! ## Restoring the candidate -/

/-- A literal has the key of another when their heads agree and their arguments have one key. -/
theorem Literal.identity_substitute_eq {f : Variable → Term} {l m : Literal}
    (hfunctor : l.functor = m.functor) (hnegated : l.negated = m.negated)
    (hmarked : l.marked = m.marked) (harity : l.arity = m.arity)
    (harguments : ∀ t u, (t, u) ∈ l.arguments.zip m.arguments →
      (t.substitute f).identity = u.identity) :
    (l.substitute f).identity = m.identity := by
  rw [Literal.substitute_eq, Literal.identity_eq_iff]
  refine ⟨hfunctor, hnegated, hmarked, ?_⟩
  rw [Term.identityAll_eq, Term.identityAll_eq, ← List.forall₂_eq_eq_eq,
    List.forall₂_map_left_iff, List.forall₂_map_right_iff, List.forall₂_map_left_iff,
    List.forall₂_iff_zip]
  exact ⟨harity, fun htu => harguments _ _ htu⟩

namespace Match

variable {s : Store} {σ : Path → Term} {query candidate : Literal} {pairs : List Binding}

/-- The exact match restores an argument: a variable by its binding, all else by being equal. -/
theorem identity_of_pairTerm {position : Nat} {t c : Term} {found : List Binding}
    (ht : t.boxes = []) (hc : c.boxes = []) (hground : c.occurrences = [])
    (h : pairTerm s position t c = some found)
    (hagree : ∀ pair ∈ found, (σ pair.name).identity = (pair.value.resolve s).identity) :
    (t.substitute fun x => σ x.name).identity = c.identity := by
  have hresolve := Term.resolve_of_ground hground s
  rcases pairTerm_eq_some_iff.1 h with ⟨x, rfl, rfl⟩ | ⟨-, hequal, -⟩
  · have hvalue := hagree _ List.mem_cons_self
    rwa [hresolve] at hvalue
  · rw [hresolve] at hequal
    have hkey := Term.identity_of_equal ht hc hequal
    cases t with
    | raw v => exact hkey
    | var x =>
        cases c with
        | raw w => cases hequal
        | var y => cases hground
        | lit m => cases hequal
    | lit l =>
        cases c with
        | raw w => cases hequal
        | var y => cases hground
        | lit m =>
            -- an equal literal has no variables that show in its key, so nothing is replaced
            have hclosed := Literal.argumentVars_of_equal_ground hequal hground
            exact (Literal.identity_substitute_of_closed hclosed _).trans hkey

theorem identity_of_exactPairs (hquery : query.boxes = []) (hcandidate : candidate.boxes = [])
    (hground : candidate.occurrences = []) (hfunctor : query.functor = candidate.functor)
    (hmarked : query.marked = candidate.marked)
    (h : exactPairs s query candidate = some pairs)
    (hagree : ∀ pair ∈ pairs, (σ pair.name).identity = (pair.value.resolve s).identity) :
    (query.substitute fun x => σ x.name).identity = candidate.identity := by
  obtain ⟨houtline, front, back, hfront, -, rfl⟩ := exactPairs_eq_some_iff.1 h
  obtain ⟨hnegated, harity, -, -⟩ := sameOutline_iff.1 houtline
  refine Literal.identity_substitute_eq hfunctor hnegated hmarked harity ?_
  intro t c htc
  obtain ⟨ht, hc⟩ := List.of_mem_zip htc
  obtain ⟨index, found, hfound, hsubset⟩ := walk_of_joinAll hfront htc
  refine identity_of_pairTerm ((query.boxes_eq_nil_iff.1 hquery).1 t ht)
    ((candidate.boxes_eq_nil_iff.1 hcandidate).1 c hc)
    (Literal.ground_of_mem_arguments hground hc) hfound ?_
  intro pair hpair
  exact hagree pair (List.mem_append_left _ (hsubset hpair))

theorem identity_of_walkLiteral {position : List Nat} (hquery : query.boxes = [])
    (hcandidate : candidate.boxes = []) (hground : candidate.occurrences = [])
    (hmarks : query.markedAlike candidate = true)
    (h : walkLiteral s position query candidate = some pairs)
    (hagree : ∀ pair ∈ pairs, (σ pair.name).identity = (pair.value.resolve s).identity) :
    (query.substitute fun x => σ x.name).identity = candidate.identity := by
  induction query using Literal.induction generalizing position candidate pairs with
  | step query harguments hannotations =>
      obtain ⟨hhead, front, back, hfront, -, rfl⟩ := walkLiteral_eq_some_iff.1 h
      obtain ⟨hnegated, hfunctor, harity, -⟩ := sameHead_iff.1 hhead
      obtain ⟨hmarked, hmarks⟩ := Literal.markedAlike_iff.1 hmarks
      refine Literal.identity_substitute_eq hfunctor hnegated hmarked harity ?_
      intro t c htc
      obtain ⟨ht, hc⟩ := List.of_mem_zip htc
      have hplain := (query.boxes_eq_nil_iff.1 hquery).1 t ht
      have hboxes := (candidate.boxes_eq_nil_iff.1 hcandidate).1 c hc
      have hclosed := Literal.ground_of_mem_arguments hground hc
      have hresolve := Term.resolve_of_ground hclosed s
      obtain ⟨index, found, hfound, hsubset⟩ := walk_of_joinAll hfront htc
      have hagree : ∀ pair ∈ found, (σ pair.name).identity = (pair.value.resolve s).identity :=
        fun pair hpair => hagree pair (List.mem_append_left _ (hsubset hpair))
      rcases walkTerm_eq_some_iff.1 hfound with
        ⟨x, rfl, -, rfl⟩ | ⟨v, w, rfl, hraw, hequal, -⟩ | ⟨l, m, rfl, hlit, hfound⟩
      · have hvalue := hagree _ List.mem_cons_self
        rwa [hresolve, hresolve] at hvalue
      · rw [hresolve] at hraw
        rw [hraw] at hboxes ⊢
        exact congrArg IdentityKey.value ((s.heap.equal_iff_outline hplain hboxes).1 hequal)
      · rw [hresolve] at hlit
        have hmarks := hmarks _ c htc
        rw [hlit] at hboxes hclosed hmarks ⊢
        exact harguments l ht hplain hboxes hclosed hmarks hfound hagree

/-- What is bound has the keys of the terms that were paired. -/
theorem identity_of_bindEach {b : BindingSet}
    (hground : ∀ pair ∈ pairs, (pair.value.resolve s).occurrences = [])
    (hboxes : ∀ pair ∈ pairs, (pair.value.resolve s).boxes = [])
    (h : BindingSet.bindEach s .empty pairs = some b) :
    ∀ pair ∈ pairs,
      (b.substitution pair.name).identity = (pair.value.resolve s).identity := by
  intro pair hpair
  obtain ⟨t, ht, hvalue⟩ := BindingSet.agrees_of_bindEach h hpair
  rw [BindingSet.substitution_of_get? ht]
  rcases hvalue with rfl | hequal
  · rfl
  · -- a name that came twice: the term bound first is equal to the one paired here
    have hclosed : t.occurrences = [] :=
      BindingSet.forall_of_bindEach (P := fun t => t.occurrences = []) hground h ht
    have hplain : t.boxes = [] :=
      BindingSet.forall_of_bindEach (P := fun t => t.boxes = []) hboxes h ht
    rw [Term.resolve_of_ground hclosed] at hequal
    exact Term.identity_of_equal hplain (hboxes pair hpair) hequal

/-- The bound terms in the place of variables make a literal with the key of the candidate. -/
theorem identity_of_bind {b : BindingSet} (hquery : query.boxes = [])
    (hcandidate : candidate.boxes = []) (hground : candidate.occurrences = [])
    (hfunctor : query.functor = candidate.functor) (hmarks : query.markedAlike candidate = true)
    (h : bind s query candidate = some b) :
    (query.substitute fun x => b.substitution x.name).identity = candidate.identity := by
  obtain ⟨pairs, hpairs, hbind⟩ := pairs_of_bind h
  have hagree : (∀ pair ∈ pairs, candidate.Shows s (pair.value.resolve s)) →
      ∀ pair ∈ pairs,
        (b.substitution pair.name).identity = (pair.value.resolve s).identity := by
    intro hshown
    refine identity_of_bindEach ?_ ?_ hbind
    · exact fun pair hpair => (hshown pair hpair).ground hground
    · exact fun pair hpair => (hshown pair hpair).boxes hground hcandidate
  rcases hpairs with hexact | hwalk
  · exact identity_of_exactPairs hquery hcandidate hground hfunctor
      (Literal.markedAlike_iff.1 hmarks).1 hexact (hagree (shows_of_exactPairs hexact))
  · exact identity_of_walkLiteral hquery hcandidate hground hmarks hwalk
      (hagree (shows_of_walkLiteral hwalk))

end Match

end Deliberation
