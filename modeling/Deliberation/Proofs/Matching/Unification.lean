import Deliberation.Matching.Unifier
import Deliberation.Proofs.Belief.Filing
import Deliberation.Proofs.Matching.Binding
import Deliberation.Proofs.Matching.Instance
import Deliberation.Proofs.Matching.Interleaving

/-!
# Unifying with facts

A query without a guard is unified with beliefs that have no variables.  The
outcome is the first belief that the exact match accepts, or else the first that
the structural match accepts, and there is one exactly when the query has an
instance among the beliefs.  Then all variables of the query are bound and
nothing else changes.
-/

namespace Deliberation

/-! ## Filling in a query -/

namespace Context

variable {s : Store} {c : Context} {query : Literal}

theorem isFlat_fill (hbare : ∀ name t, c.value? s name = some t → t.isBare = true)
    (hquery : query.isFlat = true) : (c.fill s query).isFlat = true := by
  refine Literal.isFlat_substitute hquery ?_
  intro x _
  cases hx : c.value? s x.name with
  | none => rfl
  | some t => exact hbare x.name t hx

end Context

namespace Unifier

/-! ## The belief that is taken -/

/-- The first belief that the exact match accepts, or else the first that the other one does. -/
def chosen? (s : Store) (query : Literal) (beliefs : List Literal) : Option Literal :=
  (beliefs.find? fun l => (Match.exact s query l).isSome).or
    (beliefs.find? fun l => (Match.structural s query l).isSome)

theorem filterMap_of_find? {α β : Type} {f : α → Option β} {items : List α} {a : α}
    (h : items.find? (fun a => (f a).isSome) = some a) :
    ∃ b rest, f a = some b ∧ items.filterMap f = b :: rest := by
  obtain ⟨hsome, before, behind, rfl, hnone⟩ := List.find?_eq_some_iff_append.1 h
  obtain ⟨b, hb⟩ := Option.isSome_iff_exists.1 hsome
  have hbefore : before.filterMap f = [] := by
    rw [List.filterMap_eq_nil_iff]
    intro other hother
    simpa using hnone other hother
  refine ⟨b, behind.filterMap f, hb, ?_⟩
  rw [List.filterMap_append, hbefore, List.filterMap_cons, hb]
  rfl

theorem filterMap_of_find?_none {α β : Type} {f : α → Option β} {items : List α}
    (h : items.find? (fun a => (f a).isSome) = none) : items.filterMap f = [] := by
  rw [List.filterMap_eq_nil_iff]
  intro a ha
  simpa using List.find?_eq_none.1 h a ha

section Candidates

variable {s : Store} {g : BeliefGraph} {v : ViewId} {q : Literal}

/-- The beliefs with the negation flag and the functor of a query are facts. -/
structure Facts (s : Store) (q : Literal) (beliefs : List Literal) : Prop where
  query : q.isFlat = true
  ground : ∀ l ∈ beliefs, l.occurrences = []
  functor : ∀ l ∈ beliefs, q.functor = l.functor

theorem Facts.solves {beliefs : List Literal} (h : Facts s q beliefs) {l : Literal}
    (hl : l ∈ beliefs) {b : BindingSet}
    (hb : Match.exact s q l = some b ∨ Match.structural s q l = some b) : Match.Solves s q l b := by
  rcases hb with hexact | hstructural
  · exact Match.solves_of_exact h.query (h.ground l hl) (h.functor l hl) hexact
  · exact Match.solves_of_structural (h.ground l hl) hstructural

theorem Facts.isSome_chosen?_iff {beliefs : List Literal} (h : Facts s q beliefs) :
    (chosen? s q beliefs).isSome ↔ ∃ l ∈ beliefs, q.IsInstance s.heap l := by
  rw [chosen?, Option.isSome_or, Bool.or_eq_true, List.find?_isSome, List.find?_isSome]
  constructor
  · rintro (⟨l, hl, hsome⟩ | ⟨l, hl, hsome⟩)
    · obtain ⟨b, hb⟩ := Option.isSome_iff_exists.1 hsome
      exact ⟨l, hl, (h.solves hl (Or.inl hb)).isInstance⟩
    · obtain ⟨b, hb⟩ := Option.isSome_iff_exists.1 hsome
      exact ⟨l, hl, (h.solves hl (Or.inr hb)).isInstance⟩
  · rintro ⟨l, hl, hinstance⟩
    exact Or.inr ⟨l, hl, Match.isSome_structural_of_isInstance (h.ground l hl) hinstance⟩

/-- No candidate is dropped for binding too few variables. -/
theorem Facts.candidates_eq (h : Facts s q (g.matching v q.negated q.functor.path)) :
    candidates s g v q q.vars.length =
      if ((g.matching v q.negated q.functor.path).filterMap (Match.exact s q)).isEmpty then
        (g.matching v q.negated q.functor.path).filterMap (Match.structural s q)
      else (g.matching v q.negated q.functor.path).filterMap (Match.exact s q) := by
  unfold candidates
  rw [List.filter_eq_self]
  intro b hb
  rw [decide_eq_true_eq]
  split at hb
  · obtain ⟨l, hl, hb⟩ := List.mem_filterMap.1 hb
    exact (h.solves hl (Or.inr hb)).size
  · obtain ⟨l, hl, hb⟩ := List.mem_filterMap.1 hb
    exact (h.solves hl (Or.inl hb)).size

/-- The candidates start with the match of the chosen belief. -/
theorem Facts.candidates_of_chosen? (h : Facts s q (g.matching v q.negated q.functor.path))
    {l : Literal} (hl : chosen? s q (g.matching v q.negated q.functor.path) = some l) :
    l ∈ g.matching v q.negated q.functor.path ∧
      ∃ b rest, candidates s g v q q.vars.length = b :: rest ∧ Match.Solves s q l b := by
  rw [h.candidates_eq]
  rw [chosen?] at hl
  generalize g.matching v q.negated q.functor.path = beliefs at h hl ⊢
  cases hexact : beliefs.find? fun l => (Match.exact s q l).isSome with
  | some m =>
      rw [hexact, Option.some_or, Option.some.injEq] at hl
      subst hl
      have hm := List.mem_of_find?_eq_some hexact
      obtain ⟨b, rest, hb, hsets⟩ := filterMap_of_find? hexact
      refine ⟨hm, b, rest, ?_, h.solves hm (Or.inl hb)⟩
      rw [hsets]
      rfl
  | none =>
      rw [hexact, Option.none_or] at hl
      have hm := List.mem_of_find?_eq_some hl
      obtain ⟨b, rest, hb, hsets⟩ := filterMap_of_find? hl
      refine ⟨hm, b, rest, ?_, h.solves hm (Or.inr hb)⟩
      -- no exact match at all: this is when the structural matches are looked for
      rw [filterMap_of_find?_none hexact]
      exact hsets

theorem Facts.candidates_of_none (h : Facts s q (g.matching v q.negated q.functor.path))
    (hnone : chosen? s q (g.matching v q.negated q.functor.path) = none) :
    candidates s g v q q.vars.length = [] := by
  rw [h.candidates_eq]
  rw [chosen?] at hnone
  generalize g.matching v q.negated q.functor.path = beliefs at hnone ⊢
  obtain ⟨hexact, hstructural⟩ := Option.or_eq_none_iff.1 hnone
  rw [filterMap_of_find?_none hexact]
  exact filterMap_of_find?_none hstructural

end Candidates

/-! ## The outcome -/

theorem attempt_of_apply {strategy : Strategy} {c : Context} {b : BindingSet} {s : Store}
    {after : Context.Scope} (h : b.apply ⟨s, c⟩ = (.ok (), after)) :
    attempt strategy c none b s = (.ok (some after.context), after.store) := by
  simp only [attempt, bind_apply, get_apply, h, set_apply, pure_apply]

/-- The first candidate is taken when its bindings can be written. -/
theorem unify_of_cons {u : Unifier} {g : BeliefGraph} {v : ViewId} {query : Literal}
    {c : Context} {parallel : Bool} {s : Store} {b : BindingSet} {rest : List BindingSet}
    {after : Context.Scope}
    (hsets : candidates s g v (c.fill s query) (c.fill s query).vars.length = b :: rest)
    (h : b.apply ⟨s, c⟩ = (.ok (), after)) :
    u.unify g v query c none parallel s = (.ok (some after.context), after.store) := by
  obtain ⟨strategy, pool⟩ := u
  have hattempt : attempt strategy c none b s = _ := attempt_of_apply h
  cases parallel with
  | false => simp only [unify, bind_apply, get_apply, hsets, firstAccepted, hattempt, pure_apply]
  | true =>
      cases pool with
      | none => simp only [unify, bind_apply, get_apply, hsets, firstAccepted, hattempt, pure_apply]
      | some pool =>
          simp only [unify, bind_apply, get_apply, hsets, Pool.firstMatch, Pool.firstMatchFrom,
            hattempt, pure_apply]

theorem unify_of_nil {u : Unifier} {g : BeliefGraph} {v : ViewId} {query : Literal}
    {c : Context} {parallel : Bool} {s : Store}
    (hsets : candidates s g v (c.fill s query) (c.fill s query).vars.length = []) :
    u.unify g v query c none parallel s = (.ok none, s) := by
  obtain ⟨strategy, pool⟩ := u
  cases parallel with
  | false => simp only [unify, bind_apply, get_apply, hsets, firstAccepted, pure_apply]
  | true =>
      cases pool with
      | none => simp only [unify, bind_apply, get_apply, hsets, firstAccepted, pure_apply]
      | some pool =>
          simp only [unify, bind_apply, get_apply, hsets, Pool.firstMatch, Pool.firstMatchFrom,
            pure_apply]

/--
A query has been answered by a belief: its variables are bound beside those that
were bound before, no other variable has changed, and with the bindings put in
nothing is left open and the query matches the belief.
-/
structure Answered (q l : Literal) (before after : Context.Scope) : Prop where
  bound : ∀ name, (after.context.value? after.store name).isSome ↔
    (before.context.value? before.store name).isSome ∨ name ∈ q.vars.map Variable.name
  kept : ∀ {name t}, before.context.value? before.store name = some t →
    after.context.value? after.store name = some t
  others : ∀ {name}, name ∉ q.vars.map Variable.name →
    after.context.get? name = before.context.get? name
  ground : (after.context.fill after.store q).occurrences = []
  matched : (after.context.fill after.store q).IsInstance before.store.heap l

theorem answered_of_written {q l : Literal} {b : BindingSet} {before after : Context.Scope}
    (hsolves : Match.Solves before.store q l b) (hground : l.occurrences = [])
    (hflat : l.isFlat = true)
    (hfree : ∀ x ∈ q.occurrences, before.context.value? before.store x.name = none)
    (hwritten : b.Written before after) : Answered q l before after := by
  have hnames : ∀ name, (b.get? name).isSome ↔ name ∈ q.vars.map Variable.name := by
    intro name
    rw [BindingSet.get?_isSome_iff, hsolves.mem_names, Literal.vars, Variable.mem_names_distinct]
  have hvalues : ∀ x ∈ q.occurrences,
      b.get? x.name = some ((after.context.value? after.store x.name).getD (.var x)) := by
    intro x hx
    have hx : x.name ∈ q.occurrences.map Variable.name := List.mem_map_of_mem hx
    rw [← Variable.mem_names_distinct] at hx
    obtain ⟨t, ht⟩ := Option.isSome_iff_exists.1 ((hnames x.name).2 hx)
    rw [hwritten.value, ht, Option.some_or, Option.getD_some]
  have hfilled := hsolves.substitute hground hflat hvalues
  refine ⟨?_, ?_, ?_, hfilled.1, hfilled.2⟩
  · intro name
    rw [hwritten.value, Option.isSome_or, Bool.or_eq_true, hnames, or_comm]
  · intro name t ht
    -- what was bound has been put in before the match, so the match cannot bind it again
    have hnone : b.get? name = none := by
      rw [← Option.not_isSome_iff_eq_none, BindingSet.get?_isSome_iff, hsolves.mem_names]
      intro hname
      obtain ⟨x, hx, rfl⟩ := List.mem_map.1 hname
      rw [hfree x hx] at ht
      cases ht
    rw [hwritten.value, hnone, Option.none_or]
    exact ht
  · intro name hname
    refine hwritten.kept name ?_
    rwa [← BindingSet.get?_isSome_iff, hnames]

/--
Unifying with facts takes the first belief that the exact match accepts, or else
the first that the structural match accepts.  There is such a belief exactly when
some belief with the negation flag and the functor of the query is an instance of
it; then the query is answered by it, and otherwise there is no answer and
nothing is written.  Several workers end in no other way, whatever the order of
their steps, provided that they write to no slot in common.  Boxes that contain
themselves are left out, since a comparison of them need not come to an end.
-/
theorem unify_takes_first_instance {g : BeliefGraph} {v : ViewId} {s : Store} {c : Context}
    {query : Literal} (_hacyclic : s.heap.Acyclic) (hfiled : g.Filed v)
    (hbeliefs : ∀ l, g.Stores v l → l.occurrences = [] ∧ l.isFlat = true)
    (hquery : query.isFlat = true) (howns : c.Owns s)
    (hcontext : ∀ name t, c.value? s name = some t → t.occurrences = [] ∧ t.isBare = true)
    (u : Unifier) (parallel : Bool) (happart : u.WorkersApart query c parallel s) :
    let q := c.fill s query
    let chosen := chosen? s q (g.matching v q.negated q.functor.path)
    (chosen.isSome ↔ ∃ l, g.Stores v l ∧ l.negated = q.negated ∧ l.functor = q.functor ∧
      q.IsInstance s.heap l) ∧
    (chosen = none → u.unify g v query c none parallel s = (.ok none, s)) ∧
    (∀ l, chosen = some l → ∃ after : Context.Scope,
      u.unify g v query c none parallel s = (.ok (some after.context), after.store) ∧
        Answered q l ⟨s, c⟩ after) ∧
    ∀ answer, u.Ends g v query c none parallel s answer →
      answer = u.unify g v query c none parallel s := by
  intro q chosen
  have hmem : ∀ l, l ∈ g.matching v q.negated q.functor.path ↔
      g.Stores v l ∧ l.negated = q.negated ∧ l.functor = q.functor :=
    fun l => BeliefGraph.Filed.mem_matching_iff hfiled
  have hfree : ∀ x ∈ q.occurrences, c.value? s x.name = none :=
    fun x hx => (Context.mem_fill (fun name t ht => (hcontext name t ht).1) hx).2
  have hfacts : Facts s q (g.matching v q.negated q.functor.path) := by
    refine ⟨Context.isFlat_fill (fun name t ht => (hcontext name t ht).2) hquery, ?_, ?_⟩
    · intro l hl
      exact (hbeliefs l ((hmem l).1 hl).1).1
    · intro l hl
      exact ((hmem l).1 hl).2.2.symm
  refine ⟨?_, ?_, ?_, fun answer hends => hends.eq_unify happart⟩
  · rw [hfacts.isSome_chosen?_iff]
    simp only [hmem, and_assoc]
  · intro hnone
    exact unify_of_nil (hfacts.candidates_of_none hnone)
  · intro l hl
    obtain ⟨hlmem, b, rest, hsets, hsolves⟩ := hfacts.candidates_of_chosen? hl
    obtain ⟨hground, hflat⟩ := hbeliefs l ((hmem l).1 hlmem).1
    have hunbound : ∀ name ∈ b.names, c.value? s name = none := by
      intro name hname
      obtain ⟨x, hx, rfl⟩ := List.mem_map.1 ((hsolves.mem_names name).1 hname)
      exact hfree x hx
    obtain ⟨after, happly⟩ := BindingSet.exists_apply_of_unbound howns hsolves.nodup hunbound
    have hwritten := BindingSet.written_of_apply howns hsolves.nodup happly
    exact ⟨after, unify_of_cons hsets happly,
      answered_of_written hsolves hground hflat hfree hwritten⟩

/-- An exact match comes before an earlier belief that has one more annotation. -/
theorem unify_takes_exact_match :
    let p (first second : Int64) (annotations : List Literal) : Literal :=
      ⟨⟨⟨["a"]⟩, "p"⟩, [.raw (.int first), .raw (.int second)], annotations, false, false⟩
    let changes : List BeliefChange :=
      [.add (p 1 2 []) true, .add (p 2 2 [⟨⟨.empty, "source"⟩, [], [], false, false⟩]) true,
        .add (p 3 3 []) true]
    let g := (BeliefChange.run (BeliefGraph.change .empty) BeliefGraph.rooted changes).2
    let x : Variable := ⟨⟨["X"]⟩, .mutex 0⟩
    let s : Store := { slots := #[none] }
    let query : Literal := ⟨⟨⟨["a"]⟩, "p"⟩, [.var x, .var x], [], false, false⟩
    ∃ after : Context.Scope,
      unify ⟨.crisp, none⟩ g BeliefGraph.root query ⟨[x]⟩ none false s =
          (.ok (some after.context), after.store) ∧
        Answered query (p 3 3 []) ⟨s, ⟨[x]⟩⟩ after := by
  intro p changes g x s query
  have hinitial : BeliefGraph.rooted.Represents (BeliefSet.initial .empty) :=
    BeliefGraph.represents_initial
  have hrun := hinitial.run changes (by decide)
  have hliterals :
      (BeliefChange.run BeliefSet.change (BeliefSet.initial .empty) changes).2.literals =
        [p 1 2 [], p 2 2 [⟨⟨.empty, "source"⟩, [], [], false, false⟩], p 3 3 []] := rfl
  have hbeliefs : ∀ l, g.Stores BeliefGraph.root l → l.occurrences = [] ∧ l.isFlat = true := by
    intro l hl
    rw [hrun.state.stores_iff, hliterals] at hl
    simp only [List.mem_cons, List.not_mem_nil, or_false] at hl
    rcases hl with rfl | rfl | rfl
    · exact ⟨rfl, rfl⟩
    · exact ⟨rfl, rfl⟩
    · exact ⟨rfl, rfl⟩
  have howns : Context.Owns s ⟨[x]⟩ := Context.owns_ofVariables [x] .empty
  have hcontext : ∀ name t, Context.value? s ⟨[x]⟩ name = some t →
      t.occurrences = [] ∧ t.isBare = true := by
    intro name t ht
    rw [Context.value?, Context.get?, List.find?_singleton] at ht
    split at ht
    · cases ht
    · cases ht
  have hmatching : g.matching BeliefGraph.root query.negated query.functor.path =
      [p 1 2 [], p 2 2 [⟨⟨.empty, "source"⟩, [], [], false, false⟩], p 3 3 []] := by
    rw [hrun.state.matching_eq_filter, hliterals]
    rfl
  have hfirst : (Match.exact s query (p 1 2 [])).isSome = false := by decide +kernel
  have hsecond : (Match.exact s query
      (p 2 2 [⟨⟨.empty, "source"⟩, [], [], false, false⟩])).isSome = false := by decide +kernel
  have hthird : (Match.exact s query (p 3 3 [])).isSome = true := by decide +kernel
  have hchosen : chosen? s query (g.matching BeliefGraph.root query.negated query.functor.path) =
      some (p 3 3 []) := by
    rw [hmatching, chosen?]
    simp only [List.find?, hfirst, hsecond, hthird, Option.some_or]
  have happart : WorkersApart ⟨.crisp, none⟩ query ⟨[x]⟩ false s :=
    fun hconcurrent => absurd hconcurrent Bool.false_ne_true
  exact (unify_takes_first_instance Heap.acyclic_empty hrun.state.filed hbeliefs rfl howns hcontext
    ⟨.crisp, none⟩ false happart).2.2.1 (p 3 3 []) hchosen

/--
A literal whose name has a separator in it is held once it was added, but its
name leads to no bucket: the same literal as a query is not answered by it.
-/
theorem unify_misses_divided_name :
    let l : Literal := ⟨⟨.empty, "a/b"⟩, [], [], false, false⟩
    let g := (BeliefGraph.rooted.change .empty (.add l true)).2
    g.containsLiteral .empty BeliefGraph.root l = true ∧ l.IsInstance .empty l ∧
      l.occurrences = [] ∧ l.isFlat = true ∧
      unify ⟨.crisp, none⟩ g BeliefGraph.root l .empty none false .empty = (.ok none, .empty) := by
  intro l g
  have hmatching : g.matching BeliefGraph.root l.negated l.functor.path = [] := by
    rw [← List.isEmpty_iff]
    decide +kernel
  refine ⟨by decide +kernel, ⟨fun _ => .raw .empty, rfl, rfl, rfl, trivial⟩, rfl, rfl, ?_⟩
  refine unify_of_nil ?_
  have hfill : Context.fill .empty .empty l = l := rfl
  rw [hfill, candidates, hmatching]
  rfl

end Unifier

end Deliberation
