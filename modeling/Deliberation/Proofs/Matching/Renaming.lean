import Deliberation.Matching.Unifier
import Deliberation.Proofs.Belief.Renaming
import Deliberation.Proofs.Matching.Pairing
import Deliberation.Proofs.Term.ContextRenaming

/-!
# Matching renamed literals

A match reads the names of variables to tell them apart and nothing else, and of
the variables of a query it does not read the cells at all.  So it finds in a
renamed candidate what it found before, under renamed names; in the query the
variables may be exchanged for any with the renamed names.  The same goes for
unification with renamed beliefs.
-/

namespace Deliberation

/-! ## Distinct variables -/

/-- Variables are told apart as before when their names follow an injective renaming. -/
theorem Variable.distinct_map {f : Path → Path} (hf : Function.Injective f)
    {g : Variable → Variable} (hg : ∀ x, (g x).name = f x.name) (vars : List Variable) :
    distinct (vars.map g) = (distinct vars).map g := by
  have hadd : ∀ found x, addNew (found.map g) (g x) = (addNew found x).map g := by
    intro found x
    have hany : (found.map g).any (fun y => decide (y.name = (g x).name)) =
        found.any fun y => decide (y.name = x.name) := by
      rw [List.any_map]
      congr 1
      funext y
      rw [Function.comp_apply, hg, hg]
      exact decide_eq_decide.2 hf.eq_iff
    unfold addNew
    rw [hany]
    split
    · rfl
    · rw [List.map_append, List.map_singleton]
  have hfold : ∀ found, (vars.map g).foldl addNew (found.map g) =
      (vars.foldl addNew found).map g := by
    induction vars with
    | nil => exact fun _ => rfl
    | cons x rest ih =>
        intro found
        rw [List.map_cons, List.foldl_cons, List.foldl_cons, hadd]
        exact ih _
  rw [distinct_eq_foldl, distinct_eq_foldl]
  exact hfold []

theorem Literal.vars_rename {f : Path → Path} (hf : Function.Injective f) (l : Literal) :
    (l.rename f).vars = l.vars.map (Variable.rename f) := by
  rw [Literal.vars, Literal.occurrences_rename]
  exact Variable.distinct_map hf (fun x => x.name_rename f) l.occurrences

/-! ## Binding sets -/

/-- Rename the variables of a binding. -/
def Binding.rename (f : Path → Path) (binding : Binding) : Binding :=
  ⟨f binding.name, binding.value.rename f, binding.position⟩

namespace BindingSet

/-- Rename the variables of a binding set. -/
def rename (f : Path → Path) (b : BindingSet) : BindingSet := ⟨b.bindings.map (Binding.rename f)⟩

section Renaming

variable {f : Path → Path}

theorem rename_id (b : BindingSet) : b.rename id = b := by
  have hbinding : Binding.rename id = id := by
    funext binding
    rw [Binding.rename, Term.rename_id]
    rfl
  rw [rename, hbinding, List.map_id]

theorem size_rename (b : BindingSet) : (b.rename f).size = b.size := List.length_map _

theorem pairs_rename (b : BindingSet) :
    (b.rename f).pairs = b.pairs.map fun pair => (f pair.1, pair.2.rename f) := by
  rw [pairs, rename, List.map_map, pairs, List.map_map]
  rfl

variable (hf : Function.Injective f)

include hf

theorem get?_rename (b : BindingSet) (name : Path) :
    (b.rename f).get? (f name) = (b.get? name).map (Term.rename f) := by
  unfold get? rename
  have hname : (fun binding : Binding => decide (binding.name = f name)) ∘ Binding.rename f =
      fun binding => decide (binding.name = name) := by
    funext binding
    exact decide_eq_decide.2 hf.eq_iff
  rw [List.find?_map, hname, Option.map_map, Option.map_map]
  rfl

theorem bind_rename (s : Store) (b : BindingSet) (name : Path) (t : Term) (position : List Nat) :
    (b.rename f).bind (s.rename f) (f name) (t.rename f) position =
      (b.bind s name t position).map (rename f) := by
  unfold bind
  dsimp only
  rw [get?_rename hf, Term.resolve_rename]
  cases b.get? name with
  | none => simp [rename, Binding.rename]
  | some known =>
      dsimp only [Option.map_some]
      rw [Term.resolve_rename, Store.heap_rename, Term.equal_rename hf]
      split <;> rfl

theorem bindEach_rename (s : Store) (b : BindingSet) (pairs : List Binding) :
    bindEach (s.rename f) (b.rename f) (pairs.map (Binding.rename f)) =
      (bindEach s b pairs).map (rename f) := by
  induction pairs generalizing b with
  | nil => rfl
  | cons pair rest ih =>
      have hbind := bind_rename hf s b pair.name pair.value pair.position
      rw [List.map_cons, bindEach, bindEach, Binding.rename, hbind]
      cases b.bind s pair.name pair.value pair.position with
      | none => rfl
      | some next => exact ih next

/-- Writing a renamed binding set to a renamed context. -/
theorem apply_rename (b : BindingSet) :
    Mirrors TermError.code (Becomes (Context.Scope.rename f)) Eq b.apply (b.rename f).apply := by
  rw [apply, apply, pairs_rename]
  exact Context.bindAll_rename hf b.pairs

end Renaming

end BindingSet

/-! ## Matches -/

namespace Match

open BindingSet (bindEach bindEach_rename)

section Walks

variable {α β : Type} {r : Binding → Binding}

theorem join_map (first second : Option (List Binding)) :
    join (first.map (List.map r)) (second.map (List.map r)) =
      (join first second).map (List.map r) := by
  cases first <;> cases second <;> simp [join]

theorem joinAll_map {walk other : Nat → α → β → Option (List Binding)} {F : α → α} {G : β → β}
    (step place : Nat) (queries : List α) (candidates : List β)
    (h : ∀ q ∈ queries, ∀ place c, other place (F q) (G c) = (walk place q c).map (List.map r)) :
    joinAll step other place (queries.map F) (candidates.map G) =
      (joinAll step walk place queries candidates).map (List.map r) := by
  induction queries generalizing place candidates with
  | nil => rfl
  | cons q qs ih =>
      cases candidates with
      | nil => rfl
      | cons c cs =>
          obtain ⟨hfirst, hrest⟩ := List.forall_mem_cons.1 h
          rw [List.map_cons, List.map_cons, joinAll, joinAll, hfirst, ih _ _ hrest, join_map]

end Walks

section Renaming

variable {f : Path → Path} (hf : Function.Injective f) {g : Variable → Variable}
  (hg : ∀ x, (g x).name = f x.name)

theorem sameOutline_rename (query candidate : Literal) :
    sameOutline (query.substitute fun x => .var (g x)) (candidate.rename f) =
      sameOutline query candidate := by
  rw [Bool.eq_iff_iff, sameOutline_iff, sameOutline_iff, Literal.rename_eq_substitute,
    Literal.argumentShapes_substitute_var, Literal.argumentShapes_substitute_var,
    Literal.annotationShapes_substitute_var, Literal.annotationShapes_substitute_var]
  simp only [Literal.negated_substitute, Literal.arity_substitute]

theorem sameHead_rename (query candidate : Literal) :
    sameHead (query.substitute fun x => .var (g x)) (candidate.rename f) =
      sameHead query candidate := by
  rw [Bool.eq_iff_iff, sameHead_iff, sameHead_iff, Literal.rename_eq_substitute]
  simp only [Literal.negated_substitute, Literal.functor_substitute, Literal.arity_substitute,
    Literal.annotations_substitute, List.length_map]

include hf hg

theorem equal_resolve_rename (s : Store) (ground candidate : Term)
    (hground : ∀ s : Store, ground.resolve s = ground)
    (hrenamed : ∀ s : Store,
      (ground.substitute fun x => .var (g x)).resolve s = ground.substitute fun x => .var (g x)) :
    ((ground.substitute fun x => .var (g x)).resolve (s.rename f)).equal (s.rename f).heap
        ((candidate.rename f).resolve (s.rename f)) =
      (ground.resolve s).equal s.heap (candidate.resolve s) := by
  rw [hground, hrenamed, Term.resolve_rename, Store.heap_rename, Term.rename_eq_substitute]
  exact Term.equal_substitute_var hf hg (fun x => x.name_rename f) s.heap _ _

theorem pairTerm_rename (s : Store) (position : Nat) (query candidate : Term) :
    pairTerm (s.rename f) position (query.substitute fun x => .var (g x)) (candidate.rename f) =
      (pairTerm s position query candidate).map (List.map (Binding.rename f)) := by
  cases query with
  | var x => simp [Term.substitute, pairTerm, Binding.rename, hg]
  | raw v =>
      have hequal := equal_resolve_rename hf hg s (.raw v) candidate
        (fun s => Term.resolve_raw s v) (fun s => Term.resolve_raw s v)
      rw [Term.substitute] at hequal ⊢
      rw [pairTerm, pairTerm, hequal]
      · split <;> rfl
      all_goals
        intro x h
        cases h
  | lit l =>
      have hequal := equal_resolve_rename hf hg s (.lit l) candidate
        (fun s => Term.resolve_lit s l) (fun s => Term.resolve_lit s _)
      rw [Term.substitute] at hequal ⊢
      rw [pairTerm, pairTerm, hequal]
      · split <;> rfl
      all_goals
        intro x h
        cases h

theorem exactPairs_rename (s : Store) (query candidate : Literal) :
    exactPairs (s.rename f) (query.substitute fun x => .var (g x)) (candidate.rename f) =
      (exactPairs s query candidate).map (List.map (Binding.rename f)) := by
  have hannotated : ∀ (place : Nat) (q c : Literal),
      pairAnnotated (s.rename f) place (q.substitute fun x => .var (g x)) (c.rename f) =
        (pairAnnotated s place q c).map (List.map (Binding.rename f)) := by
    intro place q c
    simp only [pairAnnotated, Literal.functor_substitute, Literal.functor_rename,
      Literal.arity_substitute, Literal.arity_rename, Literal.arguments_substitute,
      Literal.arguments_rename]
    split
    · exact joinAll_map 0 place _ _ fun q _ place c => pairTerm_rename hf hg s place q c
    · rfl
  unfold exactPairs
  rw [sameOutline_rename]
  split
  · rw [Literal.arguments_substitute, Literal.arguments_rename, Literal.arity_substitute,
      Literal.annotations_substitute, Literal.annotations_rename, ← join_map,
      joinAll_map 1 0 _ _ fun q _ place c => pairTerm_rename hf hg s place q c,
      joinAll_map 1 _ _ _ fun q _ place c => hannotated place q c]
  · rfl

/-- The exact match of a renamed candidate. -/
theorem exact_rename (s : Store) (query candidate : Literal) :
    exact (s.rename f) (query.substitute fun x => .var (g x)) (candidate.rename f) =
      (exact s query candidate).map (BindingSet.rename f) := by
  rw [exact_eq, exact_eq, exactPairs_rename hf hg]
  cases exactPairs s query candidate with
  | none => rfl
  | some pairs => exact bindEach_rename hf s .empty pairs

omit hg in
theorem bindable_rename (s : Store) (name : Path) (t : Term) :
    bindable (s.rename f) (f name) (t.rename f) = bindable s name t := by
  have hleads : (t.rename f).leadsOn (s.rename f) = t.leadsOn s := by
    cases t with
    | var x => exact x.isBound_rename f s
    | _ => rfl
  rw [bindable, hleads, Term.mentions_rename hf, bindable]

theorem walkLiteral_rename (s : Store) (position : List Nat) (query candidate : Literal) :
    walkLiteral (s.rename f) position (query.substitute fun x => .var (g x)) (candidate.rename f) =
      (walkLiteral s position query candidate).map (List.map (Binding.rename f)) := by
  induction query using Literal.induction generalizing position candidate with
  | step query harguments hannotations =>
      have hterm : ∀ q ∈ query.arguments, ∀ (place : Nat) (c : Term),
          walkTerm (s.rename f) (position ++ [place]) (q.substitute fun x => .var (g x))
              (c.rename f) =
            (walkTerm s (position ++ [place]) q c).map (List.map (Binding.rename f)) := by
        intro q hq place c
        cases q with
        | var x =>
            rw [Term.substitute, walkTerm, walkTerm, Term.resolve_rename, hg,
              bindable_rename hf]
            split <;> rfl
        | raw v =>
            rw [Term.substitute, walkTerm, walkTerm, Term.resolve_rename]
            cases c.resolve s with
            | raw w =>
                dsimp only [Term.rename]
                rw [Store.heap_rename]
                split <;> rfl
            | var y => rfl
            | lit l => rfl
        | lit l =>
            rw [Term.substitute, walkTerm, walkTerm, Term.resolve_rename]
            cases c.resolve s with
            | raw w => rfl
            | var y => rfl
            | lit m => exact harguments l hq (position ++ [place]) m
      rw [walkLiteral_eq, walkLiteral_eq, sameHead_rename]
      split
      · rw [Literal.arguments_substitute, Literal.arguments_rename, Literal.arity_substitute,
          Literal.annotations_substitute, Literal.annotations_rename, ← join_map,
          joinAll_map 1 0 _ _ hterm,
          joinAll_map 1 _ _ _ fun q hq place c => hannotations q hq (position ++ [place]) c]
      · rfl

/-- The structural match of a renamed candidate. -/
theorem structural_rename (s : Store) (query candidate : Literal) :
    structural (s.rename f) (query.substitute fun x => .var (g x)) (candidate.rename f) =
      (structural s query candidate).map (BindingSet.rename f) := by
  rw [structural_eq, structural_eq, walkLiteral_rename hf hg]
  cases walkLiteral s [] query candidate with
  | none => rfl
  | some pairs => exact bindEach_rename hf s .empty pairs

/-- The match of a renamed candidate. -/
theorem bind_rename (s : Store) (query candidate : Literal) :
    bind (s.rename f) (query.substitute fun x => .var (g x)) (candidate.rename f) =
      (bind s query candidate).map (BindingSet.rename f) := by
  unfold bind
  rw [exact_rename hf hg, structural_rename hf hg]
  cases exact s query candidate <;> rfl

end Renaming

end Match

/-! ## Unification -/

namespace Unifier

section Renaming

variable {f : Path → Path} (hf : Function.Injective f)

include hf

theorem candidates_rename {h : Variable → Variable} (hh : ∀ x, (h x).name = f x.name) (s : Store)
    (g : BeliefGraph) (v : ViewId) (query : Literal) (required : Nat) :
    candidates (s.rename f) (g.rename f) v (query.substitute fun x => .var (h x)) required =
      (candidates s g v query required).map (BindingSet.rename f) := by
  have hfilter : ∀ {walk other : Literal → Option BindingSet} (stored : List Literal),
      (∀ l, other (l.rename f) = (walk l).map (BindingSet.rename f)) →
        (stored.map (Literal.rename f)).filterMap other =
          (stored.filterMap walk).map (BindingSet.rename f) := by
    intro walk other stored hwalk
    rw [List.filterMap_map, List.map_filterMap]
    exact congrArg (List.filterMap · stored) (funext hwalk)
  unfold candidates
  dsimp only
  rw [Literal.negated_substitute, Literal.functor_substitute, BeliefGraph.matching_rename,
    hfilter _ (Match.exact_rename hf hh s query), hfilter _ (Match.structural_rename hf hh s query),
    List.isEmpty_map, ← apply_ite (List.map (BindingSet.rename f)), List.filter_map]
  congr 2
  funext b
  exact congrArg (fun size => decide (size = required)) b.size_rename

/-- Two tests that judge a context and a renamed one alike. -/
def SameTest (f : Path → Path) (guard other : Option Guard) : Prop :=
  Option.Rel (fun test check => ∀ s c,
    Both ExecutionError.code Eq (test s c) (check (s.rename f) (c.rename f))) guard other

variable {guard other : Option Guard} (hguard : SameTest f guard other)

include hguard

theorem attempt_rename (strategy : Strategy) (c : Context) (b : BindingSet) :
    Mirrors ExecutionError.code (Becomes (Store.rename f)) (Becomes (Option.map (Context.rename f)))
      (attempt strategy c guard b) (attempt strategy (c.rename f) other (b.rename f)) := by
  refine .bind .get fun s renamed hs => ?_
  cases hs
  obtain ⟨hresult, hscope⟩ := BindingSet.apply_rename hf b ⟨s, c⟩ _ rfl
  change Both _ _ _ ((b.rename f).apply ⟨s.rename f, c.rename f⟩).1 at hresult
  change Becomes _ _ ((b.rename f).apply ⟨s.rename f, c.rename f⟩).2 at hscope
  generalize b.apply ⟨s, c⟩ = left at hresult hscope ⊢
  generalize (b.rename f).apply ⟨s.rename f, c.rename f⟩ = right at hresult hscope ⊢
  obtain ⟨result, scope⟩ := left
  obtain ⟨result', scope'⟩ := right
  cases hscope
  refine .bindEq (.set rfl) fun _ => ?_
  cases hresult with
  | error he => exact .throw he
  | ok _ =>
      cases hguard with
      | none => exact .pure rfl
      | @some test check hverdict =>
          have hsame := hverdict scope.store scope.context
          dsimp only [Context.Scope.rename]
          generalize test scope.store scope.context = first at hsame ⊢
          generalize check (scope.store.rename f) (scope.context.rename f) = second at hsame ⊢
          cases hsame with
          | error he => exact .throw he
          | ok hequal =>
              cases hequal
              dsimp only
              split
              · exact .pure rfl
              · exact .pure rfl

theorem firstAccepted_rename (strategy : Strategy) (c : Context) (sets : List BindingSet) :
    Mirrors ExecutionError.code (Becomes (Store.rename f)) (Becomes (Option.map (Context.rename f)))
      (firstAccepted strategy c guard sets)
      (firstAccepted strategy (c.rename f) other (sets.map (BindingSet.rename f))) := by
  induction sets with
  | nil => exact .pure rfl
  | cons b rest ih =>
      refine .bind (attempt_rename hf hguard strategy c b) fun committed _ hcommitted => ?_
      cases hcommitted
      cases committed with
      | none => exact ih
      | some accepted => exact .pure rfl

theorem firstMatch_rename (strategy : Strategy) (c : Context) (index : Nat)
    (sets : List BindingSet) :
    Mirrors ExecutionError.code (Becomes (Store.rename f)) (Becomes (Option.map (Context.rename f)))
      (Pool.firstMatchFrom (fun _ b => attempt strategy c guard b) index sets :
        Attempt (Option Context))
      (Pool.firstMatchFrom (fun _ b => attempt strategy (c.rename f) other b) index
        (sets.map (BindingSet.rename f))) := by
  induction sets generalizing index with
  | nil => exact .pure rfl
  | cons b rest ih =>
      refine .bind (attempt_rename hf hguard strategy c b) fun committed _ hcommitted => ?_
      cases hcommitted
      cases committed with
      | none => exact ih (index + 1)
      | some accepted => exact .pure rfl

/-- Unifying a renamed query with renamed beliefs in a renamed context. -/
theorem unify_rename (u : Unifier) (g : BeliefGraph) (v : ViewId) (query : Literal) (c : Context)
    (parallel : Bool) :
    Mirrors ExecutionError.code (Becomes (Store.rename f)) (Becomes (Option.map (Context.rename f)))
      (u.unify g v query c guard parallel)
      (u.unify (g.rename f) v (query.rename f) (c.rename f) other parallel) := by
  refine .bind .get fun s renamed hs => ?_
  cases hs
  have hsets : candidates (s.rename f) (g.rename f) v
      ((c.rename f).fill (s.rename f) (query.rename f))
      ((c.rename f).fill (s.rename f) (query.rename f)).vars.length =
        (candidates s g v (c.fill s query) (c.fill s query).vars.length).map
          (BindingSet.rename f) := by
    rw [Context.fill_rename hf, Literal.vars_rename hf, List.length_map,
      Literal.rename_eq_substitute]
    exact candidates_rename hf (fun x => x.name_rename f) s g v _ _
  dsimp only
  rw [hsets]
  obtain ⟨strategy, pool⟩ := u
  cases parallel with
  | false => exact firstAccepted_rename hf hguard strategy c _
  | true =>
      cases pool with
      | none => exact firstAccepted_rename hf hguard strategy c _
      | some pool => exact firstMatch_rename hf hguard strategy c 0 _

end Renaming

end Unifier

end Deliberation
